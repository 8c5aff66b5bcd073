import CleanCopy.Text.Basic

namespace CleanCopy.Toml

def isSpace (c : Char) : Bool := c == ' ' || c == '\t'

def skipSpaces (t : Text) : Text := t.dropWhile isSpace

def afterLineEnd? : Text → Option Text
  | '\n' :: rest => some rest
  | '\r' :: '\n' :: rest => some rest
  | _ => none

/-- Any character but the control characters other than the tab. -/
def isPrintable (c : Char) : Bool := c == '\t' || (0x20 ≤ c.toNat && c.toNat != 0x7F)

def hexDigit? (c : Char) : Option Nat :=
  if '0' ≤ c ∧ c ≤ '9' then some (c.toNat - 48)
  else if 'a' ≤ c ∧ c ≤ 'f' then some (c.toNat - 87)
  else if 'A' ≤ c ∧ c ≤ 'F' then some (c.toNat - 55)
  else none

def hexValue? (digits : Text) : Option Nat :=
  digits.foldlM (fun n c => (hexDigit? c).map (16 * n + ·)) 0

def codePoint? (count : Nat) (t : Text) : Option (Char × Text) :=
  if t.length < count then none
  else
    match hexValue? (t.take count) with
    | none => none
    | some n =>
      if n < 0xD800 ∨ 0xDFFF < n ∧ n ≤ 0x10FFFF then some (Char.ofNat n, t.drop count) else none

def escape? : Text → Option (Char × Text)
  | 'b' :: rest => some ('\x08', rest)
  | 't' :: rest => some ('\t', rest)
  | 'n' :: rest => some ('\n', rest)
  | 'f' :: rest => some ('\x0c', rest)
  | 'r' :: rest => some ('\r', rest)
  | 'e' :: rest => some ('\x1b', rest)
  | '\"' :: rest => some ('\"', rest)
  | '\\' :: rest => some ('\\', rest)
  | 'x' :: rest => codePoint? 2 rest
  | 'u' :: rest => codePoint? 4 rest
  | 'U' :: rest => codePoint? 8 rest
  | _ => none

theorem codePoint?_length {count : Nat} {t rest : Text} {c : Char}
    (h : codePoint? count t = some (c, rest)) : rest.length ≤ t.length := by
  unfold codePoint? at h
  split at h
  · cases h
  · split at h
    · cases h
    · split at h
      · cases h; simp
      · cases h

theorem escape?_length {t rest : Text} {c : Char} (h : escape? t = some (c, rest)) :
    rest.length < t.length := by
  unfold escape? at h
  split at h <;> first
    | (cases h; done)
    | (cases h; simp)
    | exact Nat.lt_succ_of_le (codePoint?_length h)

def basic? (t : Text) : Option (Text × Text) :=
  match t with
  | [] => none
  | '\"' :: rest => some ([], rest)
  | '\\' :: rest =>
    match h : escape? rest with
    | none => none
    | some (c, after) =>
      have := escape?_length h
      (basic? after).map fun (a, b) => (c :: a, b)
  | c :: cs => if isPrintable c then (basic? cs).map fun (a, b) => (c :: a, b) else none
  termination_by t.length

def literal? : Text → Option (Text × Text)
  | [] => none
  | c :: cs =>
    if c = '\'' then some ([], cs)
    else if isPrintable c then (literal? cs).map fun (a, b) => (c :: a, b)
    else none

/-- Three quotes close a string; up to two more before them are part of it. -/
def closing? (q : Char) (t : Text) : Option (Text × Text) :=
  let quotes := t.takeWhile (· = q)
  if quotes.length < 3 then none
  else some (List.replicate (min quotes.length 5 - 3) q, t.drop (min quotes.length 5))

def skipLines : Text → Text
  | '\r' :: '\n' :: rest => skipLines rest
  | c :: rest => if isSpace c || c = '\n' then skipLines rest else c :: rest
  | [] => []

/-- What follows a backslash at a line's end: the next text on a later line. -/
def continuation? (t : Text) : Option Text := (afterLineEnd? (skipSpaces t)).map skipLines

theorem skipLines_length (t : Text) : (skipLines t).length ≤ t.length := by
  fun_induction skipLines t <;> simp_all <;> omega

theorem afterLineEnd?_length {t rest : Text} (h : afterLineEnd? t = some rest) :
    rest.length < t.length := by
  unfold afterLineEnd? at h
  split at h
  · cases h; exact Nat.lt_succ_self _
  · cases h; exact Nat.lt_succ_of_lt (Nat.lt_succ_self _)
  · cases h

theorem continuation?_length {t rest : Text} (h : continuation? t = some rest) :
    rest.length < t.length := by
  obtain ⟨next, hn, rfl⟩ := Option.map_eq_some_iff.1 h
  have h1 := afterLineEnd?_length hn
  have h2 := skipLines_length next
  have h3 := (List.dropWhile_sublist isSpace (l := t)).length_le
  unfold skipSpaces at h1
  omega

def basicLines? (t : Text) : Option (Text × Text) :=
  match closing? '\"' t with
  | some answer => some answer
  | none =>
    match t with
    | [] => none
    | '\\' :: rest =>
      match hc : continuation? rest with
      | some after =>
        have := continuation?_length hc
        basicLines? after
      | none =>
        match h : escape? rest with
        | none => none
        | some (c, after) =>
          have := escape?_length h
          (basicLines? after).map fun (a, b) => (c :: a, b)
    | '\r' :: '\n' :: rest => (basicLines? rest).map fun (a, b) => ('\r' :: '\n' :: a, b)
    | c :: rest =>
      if isPrintable c || c = '\n' then (basicLines? rest).map fun (a, b) => (c :: a, b) else none
  termination_by t.length

def literalLines? (t : Text) : Option (Text × Text) :=
  match closing? '\'' t with
  | some answer => some answer
  | none =>
    match t with
    | [] => none
    | '\r' :: '\n' :: rest => (literalLines? rest).map fun (a, b) => ('\r' :: '\n' :: a, b)
    | c :: rest =>
      if isPrintable c || c = '\n' then (literalLines? rest).map fun (a, b) => (c :: a, b)
      else none

/-- A line end right after the opening quotes is no part of a string. -/
def skipLineEnd (t : Text) : Text := (afterLineEnd? t).getD t

def string? : Text → Option (Text × Text)
  | '\"' :: '\"' :: '\"' :: rest => basicLines? (skipLineEnd rest)
  | '\'' :: '\'' :: '\'' :: rest => literalLines? (skipLineEnd rest)
  | '\"' :: rest => basic? rest
  | '\'' :: rest => literal? rest
  | _ => none

end CleanCopy.Toml
