import CleanCopy.Lex.Lexicon
import CleanCopy.Text.Document

namespace CleanCopy

inductive Piece where
  | code (text : Text)
  | literal (text : Text)
  | comment (cls : CommentClass) (text : Text)
  deriving DecidableEq, Repr

/-- What a line leaves open for the next one. -/
inductive Carry where
  | code
  | block (cls : CommentClass)
  | literal (d : Delimiter)
  deriving DecidableEq, Repr, Inhabited

namespace Piece

def text : Piece → Text
  | code t | literal t | comment _ t => t

def isComment (cls : CommentClass) : Piece → Bool
  | comment c _ => c == cls
  | _ => false

def isBlankCode : Piece → Bool
  | code t => t.isBlank
  | _ => false

end Piece

namespace Carry

def inLiteral : Carry → Bool
  | literal _ => true
  | _ => false

end Carry

/-- A comment or literal: closed, with the rest of the line, or open to the end of the line. -/
inductive Lexeme where
  | closed (piece : Piece) (rest : Text)
  | unclosed (piece : Piece) (carry : Carry)
  deriving DecidableEq, Repr

structure Scanned where
  pieces : List Piece
  after : Carry
  deriving DecidableEq, Repr

namespace Scanned

def consCode (c : Char) (s : Scanned) : Scanned :=
  match s.pieces with
  | .code t :: ps => { s with pieces := .code (c :: t) :: ps }
  | ps => { s with pieces := .code [c] :: ps }

def cons (p : Piece) (s : Scanned) : Scanned := { s with pieces := p :: s.pieces }

end Scanned

namespace Lexicon

def blockRest (x : Lexicon) (cls : CommentClass) (head t : Text) : Lexeme :=
  match Text.cut? x.blockCloser t with
  | some (body, rest) => .closed (.comment cls (head ++ body ++ x.blockCloser)) rest
  | none => .unclosed (.comment cls (head ++ t)) (.block cls)

def literalRest (d : Delimiter) (carry : Carry) (odd : Bool) (head t : Text) : Lexeme :=
  match d.escape.closing? d.closer 0 odd t with
  | some (body, rest) => .closed (.literal (head ++ body ++ d.closer)) rest
  | none => .unclosed (.literal (head ++ t)) carry

/-- The comment or literal that starts a text. A delimiter after an odd number of backslashes starts
none. -/
def lexeme? (x : Lexicon) (odd : Bool) (t : Text) : Option Lexeme :=
  if odd then none
  else
    match x.token? t with
    | none => none
    | some (.lineComment cls) => some (.unclosed (.comment cls t) .code)
    | some (.blockComment cls opener) => some (x.blockRest cls opener (t.drop opener.length))
    | some (.literal d) =>
      some (literalRest d (if d.multiline then .literal d else .code)
        (Escape.oddAfter odd d.opener) d.opener (t.drop d.opener.length))

/-- Scans code; `odd` tells whether an odd number of backslashes stands before it. -/
def scanCode (x : Lexicon) (odd : Bool) : Text → Scanned
  | [] => ⟨[], .code⟩
  | c :: cs =>
    match x.lexeme? odd (c :: cs) with
    | none => (x.scanCode (c == '\\' && !odd) cs).consCode c
    | some (.unclosed p k) => ⟨[p], k⟩
    | some (.closed p rest) =>
      if rest.length < cs.length + 1 then
        (x.scanCode (Escape.oddAfter odd p.text) rest).cons p
      else ⟨[p], .code⟩
  termination_by t => t.length

/-- What is left open, up to its closer in the line. -/
def resume? (x : Lexicon) (k : Carry) (line : Text) : Option Lexeme :=
  match k with
  | .code => none
  | .block cls => some (x.blockRest cls [] line)
  | .literal d => some (literalRest d k false [] line)

def scan (x : Lexicon) (k : Carry) (line : Text) : Scanned :=
  match x.resume? k line with
  | none => x.scanCode false line
  | some (.unclosed p k) => ⟨[p], k⟩
  | some (.closed p rest) => (x.scanCode (Escape.oddAfter false p.text) rest).cons p

end Lexicon

structure Row where
  line : Line
  before : Carry
  pieces : List Piece
  after : Carry
  deriving DecidableEq, Repr

namespace Lexicon

/-- Scans lines in order; what one leaves open, the next one starts with. -/
def rowsFrom (x : Lexicon) (k : Carry) : List Line → List Row
  | [] => []
  | l :: ls =>
    let s := x.scan k l.text
    ⟨l, k, s.pieces, s.after⟩ :: x.rowsFrom s.after ls

def rows (x : Lexicon) (d : Document) : List Row := x.rowsFrom .code d.lines

end Lexicon

end CleanCopy
