import CleanCopy.Lex.Scan

namespace CleanCopy

/-- A line without its comments of one class; nothing when only blanks are left. Without such a
comment the line stays as it is; with one it is trimmed, unless its end is literal text. -/
def Row.withoutComments (cls : CommentClass) (r : Row) : Option Line :=
  if r.pieces.any (·.isComment cls) then
    let kept : Text := (r.pieces.filter (!·.isComment cls)).flatMap Piece.text
    if r.after.inLiteral then some (r.line.withText kept)
    else if kept.isBlank then none
    else some (r.line.withText kept.trimEnd)
  else some r.line

def Document.stripComments (x : Lexicon) (cls : CommentClass) (d : Document) : Document :=
  d.withLines ((x.rows d).filterMap (·.withoutComments cls))

end CleanCopy
