import Mathlib.Data.List.Infix

namespace List

variable {α β : Type} {a b : α} {l s t u w : List α}

theorem getLast?_append_ne (hs : s.getLast? ≠ some a) (ht : t.getLast? ≠ some a) :
    (s ++ t).getLast? ≠ some a := by
  rw [getLast?_append, Ne, Option.or_eq_some_iff]
  rintro (h | ⟨-, h⟩)
  · exact ht h
  · exact hs h

theorem getLast?_ne_of_notMem (h : a ∉ s) : s.getLast? ≠ some a :=
  fun hlast => h (mem_of_getLast? hlast)

theorem getLast?_of_suffix (h : s <:+ t) (hs : s ≠ []) : t.getLast? = s.getLast? := by
  obtain ⟨u, rfl⟩ := h
  exact getLast?_append_of_ne_nil _ hs

/-- A word that begins with a character foreign to `u` does not begin inside of it. -/
theorem infix_of_infix_append (ha : a ∉ u) (h : (a :: w) <:+: u ++ t) : (a :: w) <:+: t := by
  induction u with
  | nil => exact h
  | cons b bs ih =>
    obtain ⟨hb, hbs⟩ := not_or.mp (mt mem_cons.mpr ha)
    obtain h | h := infix_cons_iff.mp h
    · exact absurd (cons_prefix_cons.mp h).1 hb
    · exact ih hbs h

theorem infix_append_of_reverse_prefix (h : w.reverse <+: u.reverse) : (w ++ s) <:+: u ++ s := by
  obtain ⟨q, rfl⟩ := reverse_prefix.mp h
  exact ⟨q, [], by simp⟩

theorem span_of_head?_ne [DecidableEq α] (h : t.head? ≠ some a) :
    t.takeWhile (· = a) = [] ∧ t.dropWhile (· = a) = t := by
  cases t with
  | nil => exact ⟨rfl, rfl⟩
  | cons b bs =>
    have hb : ¬ decide (b = a) = true := fun hb => h (congrArg some (of_decide_eq_true hb))
    exact ⟨takeWhile_cons_of_neg hb, dropWhile_cons_of_neg hb⟩

/-- What is joined with a separator can be read in more than one way. -/
theorem append_cons_eq_iff : s ++ a :: u = t ++ a :: w ↔ (s = t ∧ u = w) ∨
    (∃ v, t = s ++ a :: v ∧ u = v ++ a :: w) ∨ ∃ v, s = t ++ a :: v ∧ w = v ++ a :: u := by
  have hsplit {v s t : List α} (h : a :: t = v ++ a :: s) :
      (v = [] ∧ t = s) ∨ ∃ v', v = a :: v' ∧ t = v' ++ a :: s := by
    cases v with
    | nil => exact .inl ⟨rfl, (cons.inj h).2⟩
    | cons b v =>
      obtain ⟨rfl, ht⟩ := cons.inj h
      exact .inr ⟨v, rfl, ht⟩
  rw [append_eq_append_iff]
  constructor
  · rintro (⟨v, rfl, h⟩ | ⟨v, rfl, h⟩)
    · rcases hsplit h with ⟨rfl, rfl⟩ | ⟨v, rfl, rfl⟩
      · exact .inl ⟨(append_nil s).symm, rfl⟩
      · exact .inr (.inl ⟨v, rfl, rfl⟩)
    · rcases hsplit h with ⟨rfl, rfl⟩ | ⟨v, rfl, rfl⟩
      · exact .inl ⟨append_nil t, rfl⟩
      · exact .inr (.inr ⟨v, rfl, rfl⟩)
  · rintro (⟨rfl, rfl⟩ | ⟨v, rfl, rfl⟩ | ⟨v, rfl, rfl⟩)
    · exact .inl ⟨[], (append_nil s).symm, rfl⟩
    · exact .inl ⟨a :: v, rfl, rfl⟩
    · exact .inr ⟨a :: v, rfl, rfl⟩

theorem forall_split_cons {P : List α → α → List α → Prop} :
    (∀ qs p rs, a :: l = qs ++ p :: rs → P qs p rs) ↔
      P [] a l ∧ ∀ qs p rs, l = qs ++ p :: rs → P (a :: qs) p rs := by
  constructor
  · exact fun h => ⟨h [] a l rfl, fun qs p rs hl => h (a :: qs) p rs (by rw [hl]; rfl)⟩
  · rintro ⟨hhead, htail⟩ qs p rs hl
    cases qs with
    | nil =>
      obtain ⟨rfl, rfl⟩ := cons.inj hl
      exact hhead
    | cons b qs =>
      obtain ⟨rfl, htl⟩ := cons.inj hl
      exact htail qs p rs htl

theorem forall_of_filterMap_eq_self {f : α → Option α} (h : l.filterMap f = l) :
    ∀ a ∈ l, f a = some a := by
  induction l with
  | nil => exact fun a ha => absurd ha not_mem_nil
  | cons a l ih =>
    cases hf : f a with
    | none =>
      -- The other elements do not make up for one that goes.
      have hlength := length_filterMap_le f l
      rw [filterMap_cons_none hf] at h
      rw [h, length_cons] at hlength
      omega
    | some b =>
      rw [filterMap_cons_some hf] at h
      obtain ⟨rfl, hl⟩ := cons.inj h
      exact forall_mem_cons.mpr ⟨hf, ih hl⟩

theorem exists_isSome_of_foldlM {f : α → β → Option α} {xs : List β}
    (h : xs.foldlM f a = some b) : ∀ x ∈ xs, ∃ c, (f c x).isSome = true := by
  induction xs generalizing a with
  | nil => exact fun _ hx => absurd hx not_mem_nil
  | cons y ys ih =>
    rw [foldlM_cons] at h
    obtain ⟨c, hc, hys⟩ := Option.bind_eq_some_iff.mp h
    exact forall_mem_cons.mpr ⟨⟨a, by rw [hc, Option.isSome_some]⟩, ih hys⟩

theorem notMem_of_mem_splitOn [DecidableEq α] (h : s ∈ splitOn a t) : a ∉ s := by
  induction t generalizing s with
  | nil =>
    rw [mem_singleton.mp h]
    exact not_mem_nil
  | cons b bs ih =>
    rw [splitOn_cons_eq_if_modifyHead] at h
    cases hs : splitOn a bs with
    | nil => exact absurd hs (splitOn_ne_nil a bs)
    | cons first rest =>
      rw [hs] at h ih
      split at h
      · rcases mem_cons.mp h with rfl | h
        · exact not_mem_nil
        · exact ih h
      · rename_i hb
        rcases mem_cons.mp h with rfl | h
        · have := ih mem_cons_self
          simp [this, Ne.symm (show b ≠ a by simpa using hb)]
        · exact ih (mem_cons_of_mem _ h)

end List
