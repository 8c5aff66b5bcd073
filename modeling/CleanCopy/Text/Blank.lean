import CleanCopy.Text.Basic

namespace CleanCopy

/-- The Unicode property White_Space. -/
def isBlank (c : Char) : Bool :=
  let n := c.toNat
  (9 ≤ n && n ≤ 13) || n == 0x20 || n == 0x85 || n == 0xA0 || n == 0x1680 ||
    (0x2000 ≤ n && n ≤ 0x200A) || n == 0x2028 || n == 0x2029 || n == 0x202F || n == 0x205F ||
    n == 0x3000

/-- A space or a tab: blank within a line, and the only characters that indent. -/
def isGap (c : Char) : Bool := c == ' ' || c == '\t'

theorem isBlank_of_isGap {c : Char} (h : isGap c = true) : isBlank c = true := by
  simp only [isGap, Bool.or_eq_true, beq_iff_eq] at h
  rcases h with rfl | rfl <;> decide

namespace Text

def isBlank (t : Text) : Bool := t.all CleanCopy.isBlank

def trimStart (t : Text) : Text := t.dropWhile CleanCopy.isBlank

def trimEnd (t : Text) : Text := t.dropEndWhile CleanCopy.isBlank

def trim (t : Text) : Text := t.trimStart.trimEnd

def indent (t : Text) : Text := t.takeWhile isGap

end Text

end CleanCopy
