namespace CleanCopy

/-- Text is a list of characters. Offsets into it, where they matter, count UTF-8 bytes. -/
abbrev Text := List Char

namespace Text

def byteSize : Text → Nat
  | [] => 0
  | c :: cs => c.utf8Size + byteSize cs

/-- The parts before and after a byte offset; nothing when the offset is past the end or inside a
character. -/
def splitAtByte? : Nat → Text → Option (Text × Text)
  | 0, t => some ([], t)
  | _ + 1, [] => none
  | n + 1, c :: cs =>
    if c.utf8Size ≤ n + 1 then
      (splitAtByte? (n + 1 - c.utf8Size) cs).map fun (a, b) => (c :: a, b)
    else none

def after? : (start t : Text) → Option Text
  | [], t => some t
  | _ :: _, [] => none
  | p :: ps, c :: cs => if p = c then after? ps cs else none

def startsWith (t start : Text) : Bool := (after? start t).isSome

def cut? (needle : Text) : Text → Option (Text × Text)
  | [] => if needle.isEmpty then some ([], []) else none
  | c :: cs =>
    match after? needle (c :: cs) with
    | some rest => some ([], rest)
    | none => (cut? needle cs).map fun (a, b) => (c :: a, b)

/-- The pieces between the separators; one more than there are separators. -/
def splitOn (sep : Char) : Text → List Text
  | [] => [[]]
  | c :: cs =>
    if c = sep then [] :: splitOn sep cs
    else
      match splitOn sep cs with
      | [] => [[c]]
      | piece :: pieces => (c :: piece) :: pieces

def takeOne (p : Char → Bool) : Text → Text × Text
  | [] => ([], [])
  | c :: cs => if p c then ([c], cs) else ([], c :: cs)

def cutLast? (sep : Char) : Text → Option (Text × Text)
  | [] => none
  | c :: cs =>
    match cutLast? sep cs with
    | some (a, b) => some (c :: a, b)
    | none => if c = sep then some ([], cs) else none

def dropEndWhile (p : Char → Bool) : Text → Text
  | [] => []
  | c :: cs =>
    match dropEndWhile p cs with
    | [] => if p c then [] else [c]
    | t => c :: t

def asciiLower (t : Text) : Text := t.map Char.toLower

/-- Texts in the order of their code points, which is the order of their UTF-8 bytes. -/
def compare : Text → Text → Ordering
  | [], [] => .eq
  | [], _ :: _ => .lt
  | _ :: _, [] => .gt
  | a :: s, b :: t => (Ord.compare a.toNat b.toNat).then (compare s t)

theorem after?_eq_some_iff {p t r : Text} : after? p t = some r ↔ t = p ++ r := by
  induction p generalizing t with
  | nil => simp [after?]
  | cons a p ih =>
    cases t with
    | nil => simp [after?]
    | cons c cs => by_cases h : a = c <;> simp [after?, h, ih, eq_comm]

theorem startsWith_iff {s t : Text} : t.startsWith s = true ↔ s <+: t := by
  rw [startsWith, Option.isSome_iff_exists]
  simp only [after?_eq_some_iff]
  exact exists_congr fun r => eq_comm

theorem cut?_append {needle t a b : Text} (h : cut? needle t = some (a, b)) :
    a ++ needle ++ b = t := by
  induction t generalizing a b with
  | nil =>
    simp only [cut?] at h
    split at h <;> simp_all
  | cons c cs ih =>
    simp only [cut?] at h
    split at h
    · rename_i rest hd
      obtain ⟨rfl, rfl⟩ := Prod.mk.inj (Option.some.inj h)
      exact (after?_eq_some_iff.1 hd).symm
    · obtain ⟨⟨a', b'⟩, hr, he⟩ := Option.map_eq_some_iff.1 h
      obtain ⟨rfl, rfl⟩ := Prod.mk.inj he
      simp [← ih hr]

theorem cut?_length {needle t a b : Text} (h : cut? needle t = some (a, b)) :
    b.length ≤ t.length := by
  have := congrArg List.length (cut?_append h)
  simp at this
  omega

theorem takeOne_append (p : Char → Bool) (t : Text) : (takeOne p t).1 ++ (takeOne p t).2 = t := by
  cases t with
  | nil => rfl
  | cons c cs => by_cases h : p c <;> simp [takeOne, h]

theorem takeOne_length (p : Char → Bool) (t : Text) : (takeOne p t).2.length ≤ t.length := by
  have := congrArg List.length (takeOne_append p t)
  simp at this
  omega

end Text

end CleanCopy
