import CleanCopy.Text.Basic

namespace CleanCopy.Xml

def digit? (base : Nat) (c : Char) : Option Nat :=
  let value :=
    if '0' ≤ c ∧ c ≤ '9' then c.toNat - 48
    else if 'a' ≤ c ∧ c ≤ 'f' then c.toNat - 87
    else if 'A' ≤ c ∧ c ≤ 'F' then c.toNat - 55
    else base
  if value < base then some value else none

def number? (base : Nat) : Text → Option Nat
  | [] => none
  | cs => cs.foldlM (fun n c => (digit? base c).map (base * n + ·)) 0

/-- The character of a code point, of which zero and the surrogates have none. -/
def charOf? (n : Nat) : Option Char :=
  if n ≠ 0 ∧ (n < 0xD800 ∨ 0xDFFF < n ∧ n ≤ 0x10FFFF) then some (Char.ofNat n) else none

def resolve? (name : Text) : Option Char :=
  match name with
  | '#' :: 'x' :: digits => (number? 16 digits).bind charOf?
  | '#' :: digits => (number? 10 digits).bind charOf?
  | ['l', 't'] => some '<'
  | ['g', 't'] => some '>'
  | ['a', 'm', 'p'] => some '&'
  | ['q', 'u', 'o', 't'] => some '\"'
  | ['a', 'p', 'o', 's'] => some '\''
  | _ => none

/-- Text with its references resolved; `name` holds the letters of an open reference, last first. -/
def unescapeFrom (name : Option Text) : Text → Option Text
  | [] => if name.isNone then some [] else none
  | c :: cs =>
    match name with
    | none => if c = '&' then unescapeFrom (some []) cs else (unescapeFrom none cs).map (c :: ·)
    | some letters =>
      if c = '&' then none
      else if c = ';' then
        match resolve? letters.reverse with
        | some d => (unescapeFrom none cs).map (d :: ·)
        | none => none
      else unescapeFrom (some (c :: letters)) cs

/-- Text with its references resolved; nothing when one is unknown or has no end. -/
def unescape? (t : Text) : Option Text := unescapeFrom none t

end CleanCopy.Xml
