import CleanCopy.Text.Document

namespace CleanCopy

/-- The bytes of a text from `start` up to, but not including, `stop`. -/
structure Span where
  start : Nat
  stop : Nat
  deriving DecidableEq, Repr

namespace Span

/-- Whether a span meets the `size` bytes at `offset`; an empty stretch counts as one byte. -/
def touches (s : Span) (offset size : Nat) : Bool :=
  s.start < offset + max size 1 && offset < s.stop

def within (s : Span) (offset size : Nat) : Span := ⟨s.start - offset, min (s.stop - offset) size⟩

end Span

namespace Text

/-- The bytes of a text from one offset up to another; nothing when these are out of order, out of
bounds or inside a character. -/
def slice? (start stop : Nat) (t : Text) : Option Text :=
  if start ≤ stop then do
    let (_, rest) ← t.splitAtByte? start
    let (piece, _) ← rest.splitAtByte? (stop - start)
    return piece
  else none

/-- The slice in front of a span that begins at `stop`; empty when the span begins before the cursor. -/
def sliceBefore? (cursor stop : Nat) (t : Text) : Option Text :=
  if cursor < stop then t.slice? cursor stop else some []

/-- The slices of a text between the spans, from the byte `cursor` on. -/
def remainder? (t : Text) (cursor : Nat) : List Span → Option Text
  | [] => t.slice? cursor t.byteSize
  | s :: ss => do
    let kept ← t.sliceBefore? cursor s.start
    let rest ← t.remainder? (max cursor s.stop) ss
    return kept ++ rest

/-- The spans from an opener through the first closer after it, or through the end of the text,
that do not hold a body to keep. -/
def blockSpans (opener closer : Text) (keep : Text → Bool) (offset : Nat) (t : Text) : List Span :=
  match Text.cut? opener t with
  | none => []
  | some (before, inside) =>
    let start := offset + before.byteSize
    let bodyStart := start + opener.byteSize
    match Text.cut? closer inside with
    | none => if keep inside then [] else [⟨start, bodyStart + inside.byteSize⟩]
    | some (body, rest) =>
      let stop := bodyStart + body.byteSize + closer.byteSize
      if rest.length < t.length then
        if keep body then blockSpans opener closer keep stop rest
        else ⟨start, stop⟩ :: blockSpans opener closer keep stop rest
      else []
  termination_by t.length

end Text

namespace Line

def byteSize (l : Line) : Nat := l.text.byteSize + l.cr.toNat + 1

/-- What spans leave of a line that begins at a byte offset. An untouched line stays as it is; a
touched one is trimmed, and goes when only blanks are left. -/
def remainder? (spans : List Span) (offset : Nat) (l : Line) : Option (List Line) :=
  match spans.filter (·.touches offset l.text.byteSize) with
  | [] => some [l]
  | touching => do
    let kept ← l.text.remainder? 0 (touching.map (·.within offset l.text.byteSize))
    return if kept.isBlank then [] else [l.withText kept.trimEnd]

def remainders? (spans : List Span) (offset : Nat) : List Line → Option (List Line)
  | [] => some []
  | l :: ls => do
    let kept ← l.remainder? spans offset
    let rest ← remainders? spans (offset + l.byteSize) ls
    return kept ++ rest

end Line

namespace Document

def removeSpans? (spans : List Span) (d : Document) : Option Document :=
  (Line.remainders? spans 0 d.lines).map d.withLines

/-- The document without the spans, as it is when these do not fit it. -/
def removeSpans (spans : List Span) (d : Document) : Document := (d.removeSpans? spans).getD d

end Document

end CleanCopy
