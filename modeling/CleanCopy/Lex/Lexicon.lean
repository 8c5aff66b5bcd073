import CleanCopy.Lex.Escape

namespace CleanCopy

/-- A pair of delimiters around literal text; only a multi-line literal outlives its line. -/
structure Delimiter where
  opener : Text
  closer : Text
  escape : Escape
  multiline : Bool
  deriving DecidableEq, Repr, Inhabited

/-- Documentation is kept unless asked for; plain comments always go. -/
inductive CommentClass where
  | plain
  | doc
  deriving DecidableEq, Repr, Inhabited

/-- The delimiters of a language's comments and literals. Literals are tried in order. -/
structure Lexicon where
  lineComment : Option Text
  docLineComment : Option Text
  blockComment : Option (Text × Text)
  docBlockOpener : Option Text
  literals : List Delimiter
  deriving DecidableEq, Repr, Inhabited

inductive Token where
  | lineComment (cls : CommentClass)
  | blockComment (cls : CommentClass) (opener : Text)
  | literal (d : Delimiter)
  deriving DecidableEq, Repr

namespace Delimiter

def quote (q : Text) : Delimiter := ⟨q, q, .backslash, false⟩

def spanning (opener closer : Text) (e : Escape) : Delimiter := ⟨opener, closer, e, true⟩

end Delimiter

namespace Lexicon

def plain : Lexicon := ⟨none, none, none, none, []⟩

def blockCloser (x : Lexicon) : Text :=
  match x.blockComment with
  | some (_, closer) => closer
  | none => ['*', '/']

/-- A documentation marker is followed by neither `/` nor `*`. -/
def isDocMarker (marker t : Text) : Bool :=
  match Text.after? marker t with
  | none => false
  | some rest => rest.head? != some '/' && rest.head? != some '*'

def lineToken? (x : Lexicon) (t : Text) : Option Token :=
  if x.docLineComment.any (isDocMarker · t) then some (.lineComment .doc)
  else if x.lineComment.any t.startsWith then some (.lineComment .plain)
  else none

def blockToken? (x : Lexicon) (t : Text) : Option Token :=
  match x.blockComment with
  | none => none
  | some (opener, _) =>
    if t.startsWith opener then
      some (.blockComment (if x.docBlockOpener.any (isDocMarker · t) then .doc else .plain) opener)
    else none

/-- The token that starts a text: line comments before block comments before literals. -/
def token? (x : Lexicon) (t : Text) : Option Token :=
  x.lineToken? t <|> x.blockToken? t <|> (x.literals.find? (t.startsWith ·.opener)).map .literal

end Lexicon

end CleanCopy
