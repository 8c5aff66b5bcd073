import CleanCopy.Toml.Quoted

namespace CleanCopy.Toml

/-- A number, a truth value or a moment; of a float only its range is kept, of a moment nothing. -/
inductive Scalar where
  | integer (n : Int)
  | float (inRange : Bool)
  | boolean (b : Bool)
  | moment
  deriving DecidableEq, Repr

def decimalDigit? (c : Char) : Option Nat :=
  if '0' ≤ c ∧ c ≤ '9' then some (c.toNat - 48) else none

def digitBelow? (base : Nat) (c : Char) : Option Nat := (hexDigit? c).filter (· < base)

/-- The values of digits that single underscores may separate. -/
def digits? (base : Nat) : Text → Option (List Nat)
  | [] => none
  | [c] => (digitBelow? base c).map fun d => [d]
  | c :: '_' :: rest => do
    let d ← digitBelow? base c
    return d :: (← digits? base rest)
  | c :: rest => do
    let d ← digitBelow? base c
    return d :: (← digits? base rest)

def valueOf (base : Nat) (ds : List Nat) : Nat := ds.foldl (fun n d => base * n + d) 0

/-- Decimal digits, of which a zero leads only alone. -/
def plainDigits? (t : Text) : Option (List Nat) :=
  match digits? 10 t with
  | some (0 :: _ :: _) => none
  | ds => ds

def isSign (c : Char) : Bool := c == '+' || c == '-'

/-- Whether `mantissa · 10 ^ exponent` rounds to a finite number of double precision. -/
def isInRange (mantissa : Nat) (exponent : Int) : Bool :=
  if mantissa = 0 then true
  else
    let magnitude : Int := (Nat.toDigits 10 mantissa).length + exponent
    if magnitude > 310 then false
    else if magnitude < 0 then true
    else
      let bound := Nat.pow 2 1024 - Nat.pow 2 970
      if 0 ≤ exponent then mantissa * Nat.pow 10 exponent.toNat < bound
      else mantissa < bound * Nat.pow 10 (-exponent).toNat

def decimal? (negative : Bool) (t : Text) : Option Scalar := do
  let isMark (c : Char) : Bool := c == 'e' || c == 'E'
  let body := t.takeWhile (!isMark ·)
  let exponent? := (t.dropWhile (!isMark ·)).tail?
  match Text.cut? ['.'] body, exponent? with
  | none, none =>
    let n := valueOf 10 (← plainDigits? body)
    return .integer (if negative then -n else n)
  | point, exponent? =>
    let (whole, fraction) ← match point with
      | none => do pure (← plainDigits? body, [])
      | some (a, b) => do pure (← plainDigits? a, ← digits? 10 b)
    let exponent ← match exponent? with
      | none => pure (0 : Int)
      | some e =>
        let sign := Text.takeOne isSign e
        do
          let n := valueOf 10 (← digits? 10 sign.2)
          pure (if sign.1 = ['-'] then -(n : Int) else n)
    return .float (isInRange (valueOf 10 (whole ++ fraction)) (exponent - fraction.length))

def number? (t : Text) : Option Scalar :=
  match t with
  | '0' :: 'x' :: rest => (digits? 16 rest).map fun ds => .integer (valueOf 16 ds)
  | '0' :: 'o' :: rest => (digits? 8 rest).map fun ds => .integer (valueOf 8 ds)
  | '0' :: 'b' :: rest => (digits? 2 rest).map fun ds => .integer (valueOf 2 ds)
  | t =>
    let sign := Text.takeOne isSign t
    if sign.2 = ['i', 'n', 'f'] || sign.2 = ['n', 'a', 'n'] then some (.float true)
    else decimal? (sign.1 = ['-']) sign.2

def two? : Text → Option (Nat × Text)
  | a :: b :: rest => do
    let a ← decimalDigit? a
    let b ← decimalDigit? b
    return (10 * a + b, rest)
  | _ => none

def daysIn (year month : Nat) : Nat :=
  if month = 2 then
    if year % 4 = 0 ∧ (year % 100 ≠ 0 ∨ year % 400 = 0) then 29 else 28
  else if month = 4 ∨ month = 6 ∨ month = 9 ∨ month = 11 then 30
  else 31

def afterDate? (t : Text) : Option Text := do
  let (century, t) ← two? t
  let (year, t) ← two? t
  let t ← Text.after? ['-'] t
  let (month, t) ← two? t
  let t ← Text.after? ['-'] t
  let (day, t) ← two? t
  if 1 ≤ month ∧ month ≤ 12 ∧ 1 ≤ day ∧ day ≤ daysIn (100 * century + year) month then some t
  else none

def afterFraction? : Text → Option Text
  | '.' :: c :: rest =>
    if (decimalDigit? c).isSome then some (rest.dropWhile fun c => (decimalDigit? c).isSome) else none
  | '.' :: [] => none
  | t => some t

def afterTime? (t : Text) : Option Text := do
  let (hour, t) ← two? t
  let t ← Text.after? [':'] t
  let (minute, t) ← two? t
  if 23 < hour ∨ 59 < minute then none
  match t with
  | ':' :: t =>
    let (second, t) ← two? t
    if 60 < second then none
    afterFraction? t
  | t => some t

def isOffset : Text → Bool
  | [] => true
  | ['Z'] | ['z'] => true
  | c :: t =>
    isSign c && match two? t with
      | some (hour, ':' :: t) =>
        match two? t with
        | some (minute, []) => hour ≤ 23 && minute ≤ 59
        | _ => false
      | _ => false

def isMoment (t : Text) : Bool :=
  match afterDate? t with
  | some [] => true
  | some (c :: rest) => (c == 'T' || c == 't' || c == ' ') && (afterTime? rest).any isOffset
  | none => afterTime? t == some []

def scalarOf? (word : Text) : Option Scalar :=
  if word = ['t', 'r', 'u', 'e'] then some (.boolean true)
  else if word = ['f', 'a', 'l', 's', 'e'] then some (.boolean false)
  else if isMoment word then some .moment
  else number? word

def isWordChar (c : Char) : Bool :=
  c.isAlphanum || c == '_' || c == '+' || c == '-' || c == '.' || c == ':'

/-- The word a text begins with; a space joins a date with a time. -/
def word (t : Text) : Text × Text :=
  let first := t.takeWhile isWordChar
  let rest := t.dropWhile isWordChar
  match afterDate? first, rest with
  | some [], ' ' :: c :: more =>
    if (decimalDigit? c).isSome then
      (first ++ ' ' :: (c :: more).takeWhile isWordChar, (c :: more).dropWhile isWordChar)
    else (first, rest)
  | _, _ => (first, rest)

def scalar? (t : Text) : Option (Scalar × Text) :=
  let (first, rest) := word t
  (scalarOf? first).map fun s => (s, rest)

end CleanCopy.Toml
