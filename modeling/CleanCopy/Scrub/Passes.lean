import CleanCopy.Lex.Scan
import CleanCopy.Text.Spacing
import CleanCopy.Text.Word

namespace CleanCopy

def Text.isRegionMarker (t : Text) : Bool :=
  ["#region".toList, "#endregion".toList].any fun marker =>
    match after? marker t.trimStart with
    | some rest => rest.atWordEnd
    | none => false

def isPunctuation (c : Char) : Bool :=
  ['(', ')', '{', '}', '[', ']', ',', ';', ':'].contains c

namespace Row

/-- The row's code with few gaps. The indentation before code stays or goes whole. -/
def compact (keepIndent : Bool) (r : Row) : Line :=
  let tight (t : Text) := (Text.collapse t).tighten isPunctuation
  let kept (p : Piece) := match p with
    | .code t => tight t
    | p => p.text
  let written := match r.before, r.pieces with
    | .code, .code t :: ps =>
      (if keepIndent then t.indent else []) ++ tight (t.dropWhile isGap) ++ ps.flatMap kept
    | _, ps => ps.flatMap kept
  r.line.withText (if r.after.inLiteral then written else Text.trimEnd written)

def trimmed (r : Row) : Line :=
  if r.after.inLiteral then r.line else r.line.withText r.line.text.trimEnd

end Row

namespace Document

/-- Drops marker lines, whether or not they pair up. -/
def removeRegions (x : Lexicon) (d : Document) : Document :=
  d.withLines <| ((x.rows d).filter fun r =>
    r.before.inLiteral || !r.line.text.isRegionMarker).map Row.line

def removeBlankLines (x : Lexicon) (d : Document) : Document :=
  d.withLines <| ((x.rows d).filter fun r => r.before.inLiteral || !r.line.isBlank).map Row.line

def trimLines (x : Lexicon) (d : Document) : Document :=
  d.withLines ((x.rows d).map Row.trimmed)

def compact (x : Lexicon) (keepIndent : Bool) (d : Document) : Document :=
  d.withLines ((x.rows d).map (Row.compact keepIndent))

end Document

end CleanCopy
