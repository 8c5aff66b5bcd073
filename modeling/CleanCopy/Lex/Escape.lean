import CleanCopy.Text.Basic

namespace CleanCopy

/-- How a literal may hold its own closing delimiter. -/
inductive Escape where
  /-- after an odd number of backslashes -/
  | backslash
  /-- written twice -/
  | doubled
  /-- not at all -/
  | never
  deriving DecidableEq, Repr, Inhabited

namespace Escape

/-- Whether a text ends in an odd number of backslashes, when `odd` says so of what stands before it. -/
def oddAfter (odd : Bool) : Text → Bool
  | [] => odd
  | c :: cs => oddAfter (c == '\\' && !odd) cs

/-- Whether the byte offset `n` follows an odd number of backslashes; past the end counts as the end. -/
def isEscapedAt (odd : Bool) : Nat → Text → Bool
  | 0, _ => odd
  | _ + 1, [] => odd
  | n + 1, c :: cs =>
    if c.utf8Size ≤ n + 1 then isEscapedAt (c == '\\' && !odd) (n + 1 - c.utf8Size) cs else false

/-- The body of a literal and what follows its closer, in a text that starts within the literal.
`odd` tells whether an odd number of backslashes stands before the text; `skip` characters pass
unexamined. An escaped closer is stepped over by one byte, so one that begins with a wider
character ends the search. -/
def closing? (e : Escape) (closer : Text) : (skip : Nat) → (odd : Bool) → Text → Option (Text × Text)
  | 0, odd, [] =>
    if closer.isEmpty && !(e == backslash && odd) then some ([], []) else none
  | _ + 1, _, [] => none
  | skip + 1, odd, c :: cs =>
    (closing? e closer skip (c == '\\' && !odd) cs).map fun (a, b) => (c :: a, b)
  | 0, odd, c :: cs =>
    let later (skip : Nat) :=
      (closing? e closer skip (c == '\\' && !odd) cs).map fun (a, b) => (c :: a, b)
    match Text.after? closer (c :: cs) with
    | none => later 0
    | some rest =>
      match e with
      | backslash =>
        if odd then (if c.utf8Size = 1 then later 0 else none) else some ([], rest)
      | doubled =>
        if rest.startsWith closer then later (2 * closer.length - 1) else some ([], rest)
      | never => some ([], rest)

def find? (e : Escape) (closer : Text) (start : Nat) (t : Text) : Option Nat :=
  match t.splitAtByte? start with
  | none => none
  | some (before, rest) =>
    (e.closing? closer 0 (oddAfter false before) rest).map fun (body, _) =>
      start + body.byteSize

theorem oddAfter_append (odd : Bool) (s t : Text) :
    oddAfter odd (s ++ t) = oddAfter (oddAfter odd s) t := by
  induction s generalizing odd with
  | nil => rfl
  | cons c cs ih => exact ih _

theorem closing?_append {e : Escape} {closer t body rest : Text} {skip : Nat} {odd : Bool}
    (h : e.closing? closer skip odd t = some (body, rest)) : body ++ closer ++ rest = t := by
  fun_induction closing? e closer skip odd t generalizing body <;>
    grind [Text.after?_eq_some_iff, Option.map_eq_some_iff]

end Escape

end CleanCopy
