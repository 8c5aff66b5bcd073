import CleanCopy.Text.Path
import Mathlib.Order.Compare

namespace CleanCopy

namespace Text

theorem compare_cons (a b : Char) (s t : Text) :
    compare (a :: s) (b :: t) = (Ord.compare a.toNat b.toNat).then (compare s t) := rfl

theorem compare_eq_iff {s t : Text} : compare s t = .eq ↔ s = t := by
  induction s generalizing t with
  | nil => cases t <;> simp [compare]
  | cons a s ih =>
    cases t with
    | nil => simp [compare]
    | cons b t =>
      rw [compare_cons, Ordering.then_eq_eq, ih, Nat.compare_eq_eq, List.cons.injEq, Char.toNat_inj]

@[simp] theorem compare_self (t : Text) : compare t t = .eq := compare_eq_iff.mpr rfl

theorem compare_swap (s t : Text) : (compare s t).swap = compare t s := by
  induction s generalizing t with
  | nil => cases t <;> rfl
  | cons a s ih =>
    cases t with
    | nil => rfl
    | cons b t =>
      rw [compare_cons, compare_cons, Ordering.swap_then, ih, Nat.compare_swap]

theorem compare_gt_iff {s t : Text} : compare s t = .gt ↔ compare t s = .lt := by
  rw [← compare_swap t s]
  cases compare t s <;> simp

theorem compare_trans {s t u : Text} (h : compare s t = .lt) (h' : compare t u = .lt) :
    compare s u = .lt := by
  induction s generalizing t u with
  | nil =>
    cases t with
    | nil => cases h
    | cons b t =>
      cases u with
      | nil => cases h'
      | cons c u => rfl
  | cons a s ih =>
    cases t with
    | nil => cases h
    | cons b t =>
      cases u with
      | nil => cases h'
      | cons c u =>
        rw [compare_cons, Ordering.then_eq_lt, Nat.compare_eq_lt, Nat.compare_eq_eq] at h h' ⊢
        -- Only where both first characters agree do the rests decide.
        rcases h with h | ⟨h, hs⟩ <;> rcases h' with h' | ⟨h', ht⟩
        · exact .inl (by omega)
        · exact .inl (by omega)
        · exact .inl (by omega)
        · exact .inr ⟨h.trans h', ih hs ht⟩

end Text

namespace Component

theorem compare_self (c : Component) : compare c c = .eq := by
  cases c with
  | name t => exact Text.compare_self t
  | root => rfl
  | here => rfl
  | up => rfl

theorem compare_swap (a b : Component) : (compare a b).swap = compare b a := by
  cases a <;> cases b <;> first | exact Text.compare_swap _ _ | rfl

theorem compare_eq_iff {a b : Component} : compare a b = .eq ↔ a = b := by
  cases a <;> cases b <;> simp [compare, rank, Text.compare_eq_iff]

theorem compare_lt_iff {a b : Component} : compare a b = .lt ↔
    a.rank < b.rank ∨ ∃ s t, a = .name s ∧ b = .name t ∧ Text.compare s t = .lt := by
  cases a <;> cases b <;> simp [compare, rank, Nat.compare_eq_lt]

theorem compare_trans {a b c : Component} (h : compare a b = .lt) (h' : compare b c = .lt) :
    compare a c = .lt := by
  rw [compare_lt_iff] at h h' ⊢
  rcases h with h | ⟨s, t, rfl, rfl, h⟩ <;> rcases h' with h' | ⟨t', u, hb, rfl, h'⟩
  · exact .inl (Nat.lt_trans h h')
  · rw [hb] at h
    exact .inl h
  · exact .inl h'
  · obtain rfl := Component.name.inj hb
    exact .inr ⟨s, u, rfl, rfl, Text.compare_trans h h'⟩

theorem compareAll_cons (a b : Component) (as bs : List Component) :
    compareAll (a :: as) (b :: bs) = (compare a b).then (compareAll as bs) := rfl

theorem compareAll_eq_iff {as bs : List Component} : compareAll as bs = .eq ↔ as = bs := by
  induction as generalizing bs with
  | nil => cases bs <;> simp [compareAll]
  | cons a as ih =>
    cases bs with
    | nil => simp [compareAll]
    | cons b bs =>
      rw [compareAll_cons, Ordering.then_eq_eq, ih, compare_eq_iff, List.cons.injEq]

theorem compareAll_trans {as bs cs : List Component} (h : compareAll as bs = .lt)
    (h' : compareAll bs cs = .lt) : compareAll as cs = .lt := by
  induction as generalizing bs cs with
  | nil =>
    cases bs with
    | nil => cases h
    | cons b bs =>
      cases cs with
      | nil => cases h'
      | cons c cs => rfl
  | cons a as ih =>
    cases bs with
    | nil => cases h
    | cons b bs =>
      cases cs with
      | nil => cases h'
      | cons c cs =>
        rw [compareAll_cons, Ordering.then_eq_lt, compare_eq_iff] at h h' ⊢
        -- The first components that differ decide, as they do for texts.
        rcases h with h | ⟨rfl, has⟩ <;> rcases h' with h' | ⟨rfl, hbs⟩
        · exact .inl (compare_trans h h')
        · exact .inl h
        · exact .inl h'
        · exact .inr ⟨rfl, ih has hbs⟩

theorem compareAll_swap (as bs : List Component) :
    (compareAll as bs).swap = compareAll bs as := by
  induction as generalizing bs with
  | nil => cases bs <;> rfl
  | cons a as ih =>
    cases bs with
    | nil => rfl
    | cons b bs => rw [compareAll, compareAll, Ordering.swap_then, ih, compare_swap]

theorem compareAll_append (cs as bs : List Component) :
    compareAll (cs ++ as) (cs ++ bs) = compareAll as bs := by
  induction cs with
  | nil => rfl
  | cons c cs ih =>
    rw [List.cons_append, List.cons_append, compareAll, compare_self, ih]
    rfl

end Component

namespace Path

variable {p q r : Path}

/-- Paths of one spelling or another are the same place in the order when their components agree. -/
theorem compare_eq_iff : p.compare q = .eq ↔ p.components = q.components :=
  Component.compareAll_eq_iff

theorem compare_swap (p q : Path) : (p.compare q).swap = q.compare p :=
  Component.compareAll_swap _ _

theorem compare_trans (h : p.compare q = .lt) (h' : q.compare r = .lt) : p.compare r = .lt :=
  Component.compareAll_trans h h'

theorem compare_gt_iff : p.compare q = .gt ↔ q.compare p = .lt := by
  rw [← compare_swap q p]
  cases q.compare p <;> simp

end Path

end CleanCopy
