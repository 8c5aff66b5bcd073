import CleanCopy.Ignore.Glob

namespace CleanCopy.Ignore

inductive Members where
  | closed (ranges : List (Char × Char)) (rest : Text)
  | unclosed
  | backwards
  deriving DecidableEq, Repr

/-- Reads members. `first` holds right after the opening, where a closing bracket and a hyphen are
members; `pending` holds after a hyphen that may make a range of the last member. -/
def readMembers (ranges : List (Char × Char)) (first pending : Bool) : Text → Members
  | [] => .unclosed
  | c :: rest =>
    if first then readMembers [(c, c)] false false rest
    else if c = ']' then .closed (if pending then ranges ++ [('-', '-')] else ranges) rest
    else if pending then
      match ranges.getLast? with
      | some (lo, _) =>
        if c < lo then .backwards else readMembers (ranges.dropLast ++ [(lo, c)]) false false rest
      | none => .backwards
    else if c = '-' then readMembers ranges false true rest
    else readMembers (ranges ++ [(c, c)]) false false rest

theorem readMembers_length {ranges rs : List (Char × Char)} {first pending : Bool} {t rest : Text}
    (h : readMembers ranges first pending t = .closed rs rest) : rest.length ≤ t.length := by
  fun_induction readMembers ranges first pending t <;> simp_all <;> grind

def readSet (t : Text) : Bool × Members :=
  let mark := Text.takeOne (fun c => c = '!' || c = '^') t
  (!mark.1.isEmpty, readMembers [] true false mark.2)

theorem readSet_length {rs : List (Char × Char)} {t rest : Text}
    (h : (readSet t).2 = .closed rs rest) : rest.length ≤ t.length :=
  Nat.le_trans (readMembers_length h) (Text.takeOne_length _ t)

structure Brace where
  before : List Token
  branches : List (List Token)

/-- How far a glob has been read: the braces open, the tokens of the innermost branch, the last
character, and whether a bracket can still open a set. -/
structure Reading where
  braces : List Brace := []
  tokens : List Token := []
  last : Option Char := none
  sets : Bool := true

namespace Reading

def add (s : Reading) (t : Token) (c : Char) : Reading :=
  { s with tokens := s.tokens ++ [t], last := some c }

/-- Puts a token for directories in the place of the slash before it. Directories that are there
already take in more of them. -/
def absorb (s : Reading) (t : Token) (c : Char) : Reading :=
  match s.tokens.getLast? with
  | some .leading | some .trailing => { s with last := some c }
  | _ => { s with tokens := s.tokens.dropLast ++ [t], last := some c }

/-- Reads on after two stars. They stand for directories only where slashes or the ends of the glob
or of a branch are around them. -/
def stars (s : Reading) (rest : Text) : Reading × Text :=
  let inBrace := !s.braces.isEmpty
  let plain := ((s.add .run '*').add .run '*', rest)
  if s.tokens.isEmpty then
    match rest with
    | [] => (s.add .leading '*', [])
    | '/' :: rest => (s.add .leading '/', rest)
    | _ => plain
  else if s.last = some '/' || (inBrace && (s.last = some ',' || s.last = some '{')) then
    match rest with
    | [] => (s.absorb .trailing '*', [])
    | '/' :: rest => (s.absorb .between '/', rest)
    | c :: _ => if inBrace && (c = ',' || c = '}') then (s.absorb .trailing '*', rest) else plain
  else plain

theorem stars_length (s : Reading) (rest : Text) : (s.stars rest).2.length ≤ rest.length := by
  unfold stars
  grind

def openBrace (s : Reading) : Reading :=
  { s with braces := ⟨s.tokens, []⟩ :: s.braces, tokens := [], last := some '{' }

/-- A comma parts the branches of a brace and is itself elsewhere. -/
def comma (s : Reading) : Reading :=
  match s.braces with
  | [] => s.add (.char ',') ','
  | b :: outer =>
    { s with
      braces := { b with branches := b.branches ++ [s.tokens] } :: outer
      tokens := []
      last := some ',' }

def closeBrace? (s : Reading) : Option Reading :=
  match s.braces with
  | [] => none
  | b :: outer =>
    some ({ s with braces := outer, tokens := b.before }.add (.choice (b.branches ++ [s.tokens])) '}')

/-- Reads the rest of a glob. A bracket that is never closed is itself. -/
def read (s : Reading) : Text → Option Glob
  | [] => if s.braces.isEmpty then some s.tokens else none
  | '*' :: '*' :: rest =>
    have := s.stars_length rest
    read (s.stars rest).1 (s.stars rest).2
  | '\\' :: c :: rest => read (s.add (.char c) c) rest
  | c :: rest =>
    if c = '?' then read (s.add .one c) rest
    else if c = '*' then read (s.add .run c) rest
    else if c = '{' then read s.openBrace rest
    else if c = '}' then
      match s.closeBrace? with
      | some s => read s rest
      | none => none
    else if c = ',' then read s.comma rest
    else if c = '\\' then none
    else if c = '[' && s.sets then
      match h : (readSet rest).2 with
      | .closed ranges after =>
        have := readSet_length h
        read (s.add (.set (readSet rest).1 ranges) ']') after
      | .unclosed => read ({ s with sets := false }.add (.char c) c) rest
      | .backwards => none
    else read (s.add (.char c) c) rest
  termination_by t => t.length

end Reading

def Glob.read? (t : Text) : Option Glob := Reading.read {} t

end CleanCopy.Ignore
