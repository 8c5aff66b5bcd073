import CleanCopy.Text.Basic
import Mathlib.Data.List.Infix

namespace CleanCopy.Text

/-- The byte offset lies between two characters, or at an end of the text. -/
def IsBoundary (t : Text) (n : Nat) : Prop := ∃ a b, t = a ++ b ∧ a.byteSize = n

variable {a b c d s : Text}

@[simp] theorem byteSize_append (s t : Text) :
    Text.byteSize (s ++ t) = s.byteSize + t.byteSize := by
  induction s with
  | nil => exact (Nat.zero_add _).symm
  | cons c cs ih => rw [List.cons_append, byteSize, ih, byteSize, Nat.add_assoc]

theorem byteSize_pos (hs : s ≠ []) : 0 < s.byteSize := by
  obtain ⟨c, cs, rfl⟩ := List.exists_cons_of_ne_nil hs
  exact Nat.add_pos_left c.utf8Size_pos _

theorem splitAtByte?_append (a b : Text) : splitAtByte? a.byteSize (a ++ b) = some (a, b) := by
  induction a with
  | nil => rw [byteSize, List.nil_append, splitAtByte?]
  | cons c cs ih =>
    obtain ⟨n, hn⟩ : ∃ n, byteSize (c :: cs) = n + 1 :=
      Nat.exists_eq_add_one_of_ne_zero (byteSize_pos (List.cons_ne_nil c cs)).ne'
    have hsize : n + 1 = c.utf8Size + byteSize cs := hn.symm
    rw [hn, List.cons_append, splitAtByte?, if_pos (by omega), hsize, Nat.add_sub_cancel_left, ih]
    rfl

/-- Of two cuts of a text, the one at the smaller offset cuts off a beginning of what the other one
does. -/
theorem isPrefix_of_byteSize_le (h : a ++ b = c ++ d) (hle : a.byteSize ≤ c.byteSize) : a <+: c := by
  rcases List.append_eq_append_iff.mp h with ⟨s, rfl, -⟩ | ⟨s, rfl, -⟩
  · exact List.prefix_append a s
  · cases s with
    | nil => rw [List.append_nil]
    | cons x xs =>
      have hpos := byteSize_pos (List.cons_ne_nil x xs)
      rw [byteSize_append] at hle
      omega

theorem append_of_splitAtByte? {n : Nat} {t : Text} (h : splitAtByte? n t = some (a, b)) :
    a ++ b = t ∧ a.byteSize = n := by
  fun_induction splitAtByte? n t generalizing a with
  | case1 t =>
    obtain ⟨rfl, rfl⟩ := Prod.mk.inj (Option.some.inj h)
    exact ⟨rfl, rfl⟩
  | case2 => cases h
  | case3 n c cs hle ih =>
    obtain ⟨⟨a', b'⟩, hr, he⟩ := Option.map_eq_some_iff.mp h
    obtain ⟨rfl, rfl⟩ := Prod.mk.inj he
    obtain ⟨rfl, hsize⟩ := ih hr
    refine ⟨rfl, ?_⟩
    rw [byteSize, hsize]
    omega
  | case4 => cases h

theorem isBoundary_iff {n : Nat} {t : Text} : t.IsBoundary n ↔ (t.splitAtByte? n).isSome = true := by
  constructor
  · rintro ⟨a, b, rfl, rfl⟩
    rw [splitAtByte?_append]
    rfl
  · intro h
    obtain ⟨⟨a, b⟩, hab⟩ := Option.isSome_iff_exists.mp h
    obtain ⟨rfl, hn⟩ := append_of_splitAtByte? hab
    exact ⟨a, b, rfl, hn⟩

instance (t : Text) (n : Nat) : Decidable (t.IsBoundary n) := decidable_of_iff _ isBoundary_iff.symm

theorem isBoundary_zero (t : Text) : t.IsBoundary 0 := ⟨[], t, rfl, rfl⟩

theorem isBoundary_byteSize (t : Text) : t.IsBoundary t.byteSize :=
  ⟨t, [], (List.append_nil t).symm, rfl⟩

/-- A boundary of a text is one of each stretch of it, when an offset before or behind the stretch
stands for the end of it that is nearer. -/
theorem IsBoundary.within {n : Nat} (h : IsBoundary (a ++ (b ++ c)) n) :
    b.IsBoundary (min (n - a.byteSize) b.byteSize) := by
  obtain ⟨p, q, hpq, rfl⟩ := h
  rcases Nat.le_total p.byteSize a.byteSize with hle | hle
  · rw [Nat.sub_eq_zero_of_le hle, Nat.zero_min]
    exact isBoundary_zero b
  · obtain ⟨r, rfl⟩ := isPrefix_of_byteSize_le hpq hle
    rw [List.append_assoc, List.append_cancel_left_eq] at hpq
    rw [byteSize_append, Nat.add_sub_cancel_left]
    rcases Nat.le_total (Text.byteSize r) b.byteSize with hle | hle
    · obtain ⟨u, rfl⟩ := isPrefix_of_byteSize_le hpq.symm hle
      rw [Nat.min_eq_left hle]
      exact ⟨r, u, rfl, rfl⟩
    · rw [Nat.min_eq_right hle]
      exact isBoundary_byteSize b

end CleanCopy.Text
