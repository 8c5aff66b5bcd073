import CleanCopy.Text.Blank
import Mathlib.Data.List.DropRight

namespace CleanCopy.Text

theorem dropEndWhile_eq_rdropWhile (p : Char → Bool) (t : Text) :
    t.dropEndWhile p = t.rdropWhile p := by
  induction t with
  | nil => rfl
  | cons c cs ih =>
    rw [dropEndWhile, ih]
    cases hd : cs.rdropWhile p with
    | nil =>
      have hall : ∀ a ∈ cs, p a = true := List.rdropWhile_eq_nil_iff.mp hd
      by_cases hc : p c = true
      · simp only [hc, if_true]
        exact (List.rdropWhile_eq_nil_iff.mpr (by simpa [hc] using hall)).symm
      · simp only [hc, Bool.false_eq_true, if_false]
        rw [List.rdropWhile, List.reverse_cons, List.dropWhile_append_of_pos (by simpa using hall)]
        simp [hc]
    | cons a as =>
      have hne : (cs.reverse.dropWhile p).isEmpty = false := by
        have := congrArg List.length hd
        simp only [List.rdropWhile, List.length_reverse, List.length_cons] at this
        cases h : cs.reverse.dropWhile p with
        | nil => simp [h] at this
        | cons => rfl
      rw [List.rdropWhile, List.reverse_cons, List.dropWhile_append, hne]
      simp only [Bool.false_eq_true, if_false, List.reverse_append, List.reverse_singleton]
      exact congrArg (c :: ·) hd.symm

theorem isBlank_iff {t : Text} : t.isBlank = true ↔ ∀ c ∈ t, CleanCopy.isBlank c = true := by
  simp [Text.isBlank]

@[simp] theorem isBlank_nil : Text.isBlank [] = true := rfl

@[simp] theorem isBlank_cons (c : Char) (t : Text) :
    Text.isBlank (c :: t) = (CleanCopy.isBlank c && t.isBlank) := rfl

@[simp] theorem isBlank_append (s t : Text) :
    Text.isBlank (s ++ t) = (s.isBlank && t.isBlank) := by
  simp [Text.isBlank]

@[simp] theorem trimEnd_nil : Text.trimEnd [] = [] := rfl

theorem trimEnd_eq_nil_iff {t : Text} : t.trimEnd = [] ↔ t.isBlank = true := by
  rw [trimEnd, dropEndWhile_eq_rdropWhile, List.rdropWhile_eq_nil_iff, isBlank_iff]

theorem trimEnd_isPrefix (t : Text) : t.trimEnd <+: t := by
  rw [trimEnd, dropEndWhile_eq_rdropWhile]
  exact List.rdropWhile_prefix _ _

@[simp] theorem trimEnd_trimEnd (t : Text) : t.trimEnd.trimEnd = t.trimEnd := by
  simp only [trimEnd, dropEndWhile_eq_rdropWhile]
  exact List.rdropWhile_idempotent _ _

theorem trimEnd_append_of_blank (s : Text) {t : Text} (h : t.isBlank = true) :
    Text.trimEnd (s ++ t) = s.trimEnd := by
  have hall : ∀ c ∈ t.reverse, CleanCopy.isBlank c = true := by
    simpa using isBlank_iff.mp h
  simp only [trimEnd, dropEndWhile_eq_rdropWhile, List.rdropWhile, List.reverse_append,
    List.dropWhile_append_of_pos hall]

theorem trimEnd_append_of_not_blank (s : Text) {t : Text} (h : t.isBlank = false) :
    Text.trimEnd (s ++ t) = s ++ t.trimEnd := by
  have hne : t.reverse.dropWhile CleanCopy.isBlank ≠ [] := by
    intro he
    have : t.trimEnd = [] := by
      rw [trimEnd, dropEndWhile_eq_rdropWhile, List.rdropWhile, he, List.reverse_nil]
    rw [trimEnd_eq_nil_iff, h] at this
    exact Bool.false_ne_true this
  simp only [trimEnd, dropEndWhile_eq_rdropWhile, List.rdropWhile, List.reverse_append,
    List.dropWhile_append, List.isEmpty_iff, if_neg hne, List.reverse_reverse]

/-- What trimming cuts off is blank. -/
theorem exists_trimEnd_append (t : Text) : ∃ b : Text, b.isBlank = true ∧ t.trimEnd ++ b = t := by
  refine ⟨t.rtakeWhile CleanCopy.isBlank, ?_, ?_⟩
  · exact isBlank_iff.mpr fun c hc => List.mem_rtakeWhile_imp hc
  · rw [trimEnd, dropEndWhile_eq_rdropWhile]
    exact List.rdropWhile_append_rtakeWhile ..

theorem trimEnd_eq_self_of_getLast? {t : Text}
    (h : ∀ c, t.getLast? = some c → CleanCopy.isBlank c = false) : t.trimEnd = t := by
  rw [trimEnd, dropEndWhile_eq_rdropWhile, List.rdropWhile_eq_self_iff]
  intro hl
  rw [h _ (List.getLast?_eq_some_getLast hl)]
  exact Bool.false_ne_true

theorem getLast?_trimEnd {t : Text} {c : Char} (h : t.trimEnd.getLast? = some c) :
    CleanCopy.isBlank c = false := by
  rw [trimEnd, dropEndWhile_eq_rdropWhile] at h
  have hne : t.rdropWhile CleanCopy.isBlank ≠ [] := by
    intro he
    simp [he] at h
  rw [List.getLast?_eq_some_getLast hne] at h
  obtain rfl := Option.some.inj h
  exact Bool.eq_false_iff.mpr (List.rdropWhile_last_not _ _ hne)

theorem head?_trimEnd {t : Text} {c : Char} (h : t.trimEnd.head? = some c) :
    t.head? = some c := by
  obtain ⟨b, -, hb⟩ := exists_trimEnd_append t
  rw [← hb, List.head?_append, h]
  rfl

/-- The characters that are not whitespace. -/
def visible (t : Text) : Text := t.filter (!CleanCopy.isBlank ·)

@[simp] theorem visible_append (s t : Text) : Text.visible (s ++ t) = s.visible ++ t.visible :=
  List.filter_append ..

theorem visible_eq_nil_iff {t : Text} : t.visible = [] ↔ t.isBlank = true := by
  simp [visible, Text.isBlank]

theorem visible_cons_of_blank {c : Char} (h : CleanCopy.isBlank c = true) (t : Text) :
    Text.visible (c :: t) = t.visible :=
  List.filter_cons_of_neg (by simp [h])

/-- One character more in front of both texts. -/
theorem visible_cons_congr {s t : Text} (h : s.visible = t.visible) (c : Char) :
    Text.visible (c :: s) = Text.visible (c :: t) := by
  rw [visible, visible, List.filter_cons, List.filter_cons]
  exact congrArg (fun u : Text => if !CleanCopy.isBlank c then c :: u else u) h

@[simp] theorem visible_trimEnd (t : Text) : t.trimEnd.visible = t.visible := by
  obtain ⟨b, hb, ht⟩ := exists_trimEnd_append t
  conv_rhs => rw [← ht, visible_append, visible_eq_nil_iff.mpr hb, List.append_nil]

end CleanCopy.Text
