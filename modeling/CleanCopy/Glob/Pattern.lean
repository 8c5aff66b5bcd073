import CleanCopy.Text.Basic

namespace CleanCopy

inductive SetOp where
  | difference
  | intersection
  | symmetricDifference
  deriving DecidableEq, Repr

/-- The members of a class: inclusive ranges, or an operation on two sets. -/
inductive CharSet where
  | ranges (rs : List (Char × Char))
  | op (o : SetOp) (left right : CharSet)
  deriving DecidableEq, Repr

namespace CharSet

def contains (c : Char) : CharSet → Bool
  | ranges rs => rs.any fun (lo, hi) => lo ≤ c && c ≤ hi
  | op .difference l r => l.contains c && !r.contains c
  | op .intersection l r => l.contains c && r.contains c
  | op .symmetricDifference l r => l.contains c != r.contains c

end CharSet

inductive Atom where
  /-- any character but a line feed -/
  | any
  | char (c : Char)
  | set (negated : Bool) (members : CharSet)
  deriving DecidableEq, Repr

def Atom.accepts (c : Char) : Atom → Bool
  | any => c != '\n'
  | char d => c == d
  | set negated members => members.contains c != negated

structure Step where
  atom : Atom
  many : Bool
  deriving DecidableEq, Repr

abbrev Pattern := List Step

namespace Pattern

def accepts : Pattern → Text → Bool
  | [], t => t.isEmpty
  | s :: ss, [] => s.many && accepts ss []
  | s :: ss, c :: cs =>
    if s.many then accepts ss (c :: cs) || (s.atom.accepts c && accepts (s :: ss) cs)
    else s.atom.accepts c && accepts ss cs
  termination_by p t => p.length + t.length

def isMeta (c : Char) : Bool :=
  ['\\', '.', '+', '*', '?', '(', ')', '|', '[', ']', '\x7b', '\x7d', '^', '$', '#', '&', '-',
    '~'].contains c

def readMember? : Text → Option (Char × Text)
  | '\\' :: c :: cs => if isMeta c then some (c, cs) else none
  | '\\' :: [] => none
  | c :: cs => some (c, cs)
  | [] => none

/-- What follows a hyphen that makes a range: neither the end of the class nor a second hyphen. -/
def afterRangeMark? : Text → Option Text
  | '-' :: rest => if rest.head? = some ']' || rest.head? = some '-' then none else some rest
  | _ => none

/-- One member or range, with something behind it; a range does not run backwards. -/
def readRange? (t : Text) : Option ((Char × Char) × Text) :=
  match readMember? t with
  | none => none
  | some (lo, rest) =>
    match afterRangeMark? rest with
    | none => if rest.isEmpty then none else some ((lo, lo), rest)
    | some more =>
      match readMember? more with
      | none => none
      | some (hi, rest) => if lo ≤ hi then some ((lo, hi), rest) else none

theorem afterRangeMark?_length {t rest : Text} (h : afterRangeMark? t = some rest) :
    rest.length < t.length := by
  unfold afterRangeMark? at h
  grind

theorem readMember?_length {t rest : Text} {c : Char} (h : readMember? t = some (c, rest)) :
    rest.length < t.length := by
  unfold readMember? at h
  grind

theorem readRange?_length {t rest : Text} {r : Char × Char}
    (h : readRange? t = some (r, rest)) : rest.length < t.length := by
  unfold readRange? at h
  split at h
  · cases h
  · rename_i lo more hm
    have h1 := readMember?_length hm
    split at h
    · split at h
      · cases h
      · cases h; exact h1
    · rename_i inner ha
      have h2 := afterRangeMark?_length ha
      split at h
      · cases h
      · rename_i hi last hl
        have h3 := readMember?_length hl
        split at h
        · cases h; omega
        · cases h

/-- Applies the operation that is waiting for its right side. -/
def finish (waiting : Option (CharSet × SetOp)) (rs : List (Char × Char)) : CharSet :=
  match waiting with
  | none => .ranges rs
  | some (left, o) => .op o left (.ranges rs)

def readMembers? (waiting : Option (CharSet × SetOp)) (rs : List (Char × Char)) (t : Text) :
    Option (CharSet × Text) :=
  match t with
  | [] => none
  | '[' :: _ => none
  | ']' :: rest => some (finish waiting rs, rest)
  | '&' :: '&' :: rest => readMembers? (some (finish waiting rs, .intersection)) [] rest
  | '-' :: '-' :: rest => readMembers? (some (finish waiting rs, .difference)) [] rest
  | '~' :: '~' :: rest => readMembers? (some (finish waiting rs, .symmetricDifference)) [] rest
  | c :: cs =>
    match h : readRange? (c :: cs) with
    | none => none
    | some (r, rest) =>
      have := Nat.le_of_lt_succ (readRange?_length h)
      readMembers? waiting (rs ++ [r]) rest
  termination_by t.length

/-- A class after its opening bracket: a caret negates, and hyphens or a bracket right at the start
are members. -/
def readClass? (t : Text) : Option (Atom × Text) :=
  let mark := t.takeOne (· = '^')
  let hyphens := mark.2.takeWhile (· = '-')
  let rest := mark.2.dropWhile (· = '-')
  let bracket := if hyphens.isEmpty then Text.takeOne (· = ']') rest else ([], rest)
  (readMembers? none ((hyphens ++ bracket.1).map fun c => (c, c)) bracket.2).map
    fun (members, rest) => (.set (!mark.1.isEmpty) members, rest)

def readAtom? : Text → Option (Atom × Text)
  | '.' :: rest => some (.any, rest)
  | '[' :: rest => readClass? rest
  | '\\' :: c :: rest => if isMeta c then some (.char c, rest) else none
  | c :: rest => if isMeta c then none else some (.char c, rest)
  | [] => none

def readSteps? (t : Text) : Option Pattern :=
  match t with
  | ['$'] => some []
  | t =>
    match readAtom? t with
    | none => none
    | some (atom, rest) =>
      let (many, rest) := match rest with
        | '*' :: rest => (true, rest)
        | _ => (false, rest)
      if rest.length < t.length then (readSteps? rest).map (⟨atom, many⟩ :: ·) else none
  termination_by t.length

/-- Reads a pattern written between `^` and `$`; nothing when it is malformed. -/
def read? : Text → Option Pattern
  | '^' :: rest => readSteps? rest
  | _ => none

end Pattern

end CleanCopy
