import CleanCopy.Lex.Scan
import CleanCopy.Lex.Languages
import CleanCopy.Text.Word

namespace CleanCopy

structure NestedRow where
  row : Row
  depth : Nat
  deriving DecidableEq, Repr

/-- The number of open brackets after a text; a closing bracket too many is ignored. -/
def bracketDepth (depth : Nat) : Text → Nat
  | [] => depth
  | c :: cs =>
    if ['(', '[', '{'].contains c then bracketDepth (depth + 1) cs
    else if [')', ']', '}'].contains c then bracketDepth (depth - 1) cs
    else bracketDepth depth cs

/-- The number of open brackets after a row, of which only code counts. -/
def Row.depthAfter (depth : Nat) (r : Row) : Nat :=
  r.pieces.foldl (fun n p => match p with | .code t => bracketDepth n t | _ => n) depth

def NestedRow.ofRows (depth : Nat) : List Row → List NestedRow
  | [] => []
  | r :: rs => ⟨r, depth⟩ :: ofRows (r.depthAfter depth) rs

namespace Text

def blockKeywords : List Text :=
  ["def", "class", "if", "elif", "else", "for", "while", "with", "try", "except", "finally",
    "match", "case"].map String.toList

def opensBlock (t : Text) : Bool :=
  let t := t.trimStart
  let statement := match after? "async".toList t with
    | some rest => if rest.head?.any CleanCopy.isBlank then rest.trimStart else t
    | none => t
  blockKeywords.any fun word =>
    match after? word statement with
    | some rest => rest.atWordEnd
    | none => false

/-- Blanks, or blanks and one letter that leaves a string a plain one. -/
def isDocstringMark (t : Text) : Bool :=
  match t.trimStart with
  | [] => true
  | [c] => ['r', 'R', 'u', 'U'].contains c
  | _ => false

end Text

namespace Piece

def isTripleQuoted : Piece → Bool
  | literal t => t.startsWith ['\"', '\"', '\"'] || t.startsWith ['\'', '\'', '\'']
  | _ => false

end Piece

/-- Where a docstring may stand: first in the module, or first in the block that a statement opens. -/
inductive DocstringSlot where
  | module
  | block (opener : Text)
  deriving DecidableEq, Repr

namespace NestedRow

def isBlank (r : NestedRow) : Bool := r.row.line.isBlank

def text (r : NestedRow) : Text := r.row.line.text

/-- The slot a row stands in, given the rows above it, nearest first. A block's row is indented
deeper than the line on which the statement above began. -/
def slot? (above : List NestedRow) (r : NestedRow) : Option DocstringSlot :=
  match above.dropWhile isBlank with
  | [] => some .module
  | last :: earlier =>
    if r.depth = 0 && last.text.trimEnd.getLast? = some ':' then
      match (last :: earlier).find? (·.depth = 0) with
      | none => none
      | some opener =>
        if opener.text.opensBlock && opener.text.indent.length < r.text.indent.length then
          some (.block opener.text)
        else none
    else none

/-- The rows from here on that a docstring takes, and the rest: it ends on the first row that ends
outside literals, with nothing but blanks behind it. -/
def docstring? (r : NestedRow) (rest : List NestedRow) :
    Option (List NestedRow × List NestedRow) :=
  let tail? := match r.row.pieces with
    | .code mark :: p :: ps => if mark.isDocstringMark && p.isTripleQuoted then some ps else none
    | p :: ps => if p.isTripleQuoted then some ps else none
    | [] => none
  match tail? with
  | none => none
  | some tail =>
    if r.row.after.inLiteral then
      match rest.dropWhile (·.row.after.inLiteral) with
      | [] => none
      | last :: following =>
        if (last.row.pieces.drop 1).all Piece.isBlankCode then
          some (r :: rest.takeWhile (·.row.after.inLiteral) ++ [last], following)
        else none
    else if tail.all Piece.isBlankCode then some ([r], rest)
    else none

def endsBlock (opener : Text) (rest : List NestedRow) : Bool :=
  match rest.find? (!·.isBlank) with
  | none => true
  | some r => r.text.indent.length ≤ opener.indent.length

/-- What stands in a removed docstring's place: `pass` where the block would be empty. -/
def placeholder (slot : DocstringSlot) (r : NestedRow) (rest : List NestedRow) : List Line :=
  match slot with
  | .module => []
  | .block opener =>
    if endsBlock opener rest then [r.row.line.withText (r.text.indent ++ "pass".toList)] else []

theorem docstring?_length {r : NestedRow} {rest taken following : List NestedRow}
    (h : r.docstring? rest = some (taken, following)) : following.length ≤ rest.length := by
  simp only [docstring?] at h
  split at h
  · cases h
  · split at h
    · split at h
      · cases h
      · rename_i last rows hd
        split at h
        · cases h
          have := (List.dropWhile_sublist (l := rest)
            (fun r : NestedRow => r.row.after.inLiteral)).length_le
          rw [hd, List.length_cons] at this
          omega
        · cases h
    · split at h
      · cases h; exact Nat.le_refl _
      · cases h

def withoutDocstrings (above : List NestedRow) : List NestedRow → List Line
  | [] => []
  | r :: rest =>
    match if r.row.before = .code then slot? above r else none with
    | none => r.row.line :: withoutDocstrings (r :: above) rest
    | some slot =>
      match h : r.docstring? rest with
      | none => r.row.line :: withoutDocstrings (r :: above) rest
      | some (taken, following) =>
        have := docstring?_length h
        r.placeholder slot following ++ withoutDocstrings (taken.reverse ++ above) following
  termination_by rows => rows.length

end NestedRow

/-- Drops the triple-quoted strings that are the first statement of the module or of a block. -/
def Document.removeDocstrings (d : Document) : Document :=
  d.withLines (NestedRow.withoutDocstrings [] (NestedRow.ofRows 0 (Lexicon.python.rows d)))

end CleanCopy
