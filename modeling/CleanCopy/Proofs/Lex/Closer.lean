import CleanCopy.Proofs.Lex.Opening
import Mathlib.Algebra.Ring.Parity
import Mathlib.Data.List.DropRight

namespace CleanCopy

/-- Something that can be searched for as a delimiter: not empty, and in ASCII. -/
def Text.IsDelimiter (t : Text) : Prop := t ≠ [] ∧ ∀ c ∈ t, c.utf8Size = 1

instance (t : Text) : Decidable t.IsDelimiter :=
  haveI : Decidable (∀ c ∈ t, c.utf8Size = 1) := List.decidableBAll _ t
  inferInstanceAs (Decidable (_ ∧ _))

/-- A delimiter that stands behind this text is escaped. -/
def Text.EndsEscaped (t : Text) : Prop := Odd (t.rtakeWhile (· == '\\')).length

namespace Escape

/-- Closers stand in pairs only, from the left to the right of a text that `rest` follows. -/
inductive Paired (closer rest : Text) : Text → Prop
  | nil : Paired closer rest []
  | char {c : Char} {t : Text} (free : ¬ closer <+: c :: (t ++ rest))
      (later : Paired closer rest t) : Paired closer rest (c :: t)
  | pair {t : Text} (later : Paired closer rest t) : Paired closer rest (closer ++ closer ++ t)

/-- No closer that begins in `t`, between `before` and `rest`, ends the literal. -/
def Quiet (e : Escape) (closer before rest t : Text) : Prop :=
  match e with
  | doubled => Paired closer rest t
  | _ => ∀ s u, t = s ++ u → u ≠ [] → closer <+: u ++ rest →
      e = backslash ∧ (before ++ s).EndsEscaped

/-- A closer between `before` and `rest` ends the literal. -/
def Ends (e : Escape) (closer before rest : Text) : Prop :=
  match e with
  | backslash => ¬ before.EndsEscaped
  | doubled => ¬ closer <+: rest
  | never => True

variable {e : Escape} {closer before rest t body : Text} {odd : Bool} {c : Char}

theorem oddAfter_concat (odd : Bool) (t : Text) (c : Char) :
    oddAfter odd (t ++ [c]) = (c == '\\' && !oddAfter odd t) := oddAfter_append odd t [c]

theorem getLast?_of_oddAfter (h : oddAfter false t = true) : t.getLast? = some '\\' := by
  cases t using List.reverseRecOn with
  | nil => cases h
  | append_singleton t c =>
    rw [oddAfter_concat, Bool.and_eq_true, beq_iff_eq] at h
    rw [List.getLast?_concat, h.1]

theorem oddAfter_iff : oddAfter false t = true ↔ t.EndsEscaped := by
  -- The last character decides.
  induction t using List.reverseRecOn with
  | nil => simp [oddAfter, Text.EndsEscaped]
  | append_singleton t c ih =>
    rw [Text.EndsEscaped, List.rtakeWhile_concat, oddAfter_concat]
    by_cases hc : (c == '\\') = true
    · rw [if_pos hc, List.length_append, List.length_singleton, Nat.odd_add_one, hc, Bool.true_and,
        Bool.not_eq_true', ← Bool.not_eq_true, ih, Text.EndsEscaped]
    · simp [hc]

theorem closing?_of_free (h : ¬ closer <+: c :: t) :
    e.closing? closer 0 odd (c :: t) =
      (e.closing? closer 0 (c == '\\' && !odd) t).map fun q => (c :: q.1, q.2) := by
  have hn : Text.after? closer (c :: t) = none := by
    rw [← Text.startsWith_iff, Text.startsWith, Option.isSome_iff_ne_none, not_not] at h
    exact h
  rw [closing?, hn]

theorem closing?_of_escaped (hc : closer.IsDelimiter) (h : closer <+: c :: t) :
    backslash.closing? closer 0 true (c :: t) =
      (backslash.closing? closer 0 (c == '\\' && !true) t).map fun q => (c :: q.1, q.2) := by
  obtain ⟨r, hr⟩ := h
  have hsize : c.utf8Size = 1 := by
    cases closer with
    | nil => exact absurd rfl hc.1
    | cons a as => exact hc.2 c (by rw [(List.cons.inj hr).1]; exact List.mem_cons_self)
  rw [closing?, Text.after?_eq_some_iff.mpr hr.symm]
  simp only [if_true, hsize]

theorem closing?_skip (e : Escape) (closer : Text) (odd : Bool) (s t : Text) :
    e.closing? closer s.length odd (s ++ t) =
      (e.closing? closer 0 (oddAfter odd s) t).map fun q => (s ++ q.1, q.2) := by
  induction s generalizing odd with
  | nil => simp [oddAfter]
  | cons c s ih =>
    rw [List.length_cons, List.cons_append, closing?, ih, Option.map_map, oddAfter]
    rfl

theorem closing?_pair (hc : closer ≠ []) (odd : Bool) (t : Text) :
    doubled.closing? closer 0 odd (closer ++ closer ++ t) =
      (doubled.closing? closer 0 (oddAfter odd (closer ++ closer)) t).map
        fun q => (closer ++ closer ++ q.1, q.2) := by
  obtain ⟨c, s, hs⟩ : ∃ c s, closer ++ closer = c :: s :=
    List.exists_cons_of_ne_nil fun h => hc (List.append_eq_nil_iff.mp h).1
  have hlen : 2 * closer.length - 1 = s.length := by
    have := congrArg List.length hs
    simp only [List.length_append, List.length_cons] at this
    omega
  have ha : Text.after? closer (c :: (s ++ t)) = some (closer ++ t) := by
    rw [Text.after?_eq_some_iff, ← List.cons_append, ← hs, List.append_assoc]
  have hb : Text.startsWith (closer ++ t) closer = true :=
    Text.startsWith_iff.mpr (List.prefix_append closer t)
  rw [hs, List.cons_append, closing?, ha]
  simp only [hb, if_true, hlen, closing?_skip, Option.map_map, oddAfter]
  rfl

theorem closing?_of_ends (hc : closer ≠ []) (h : e.Ends closer before rest) :
    e.closing? closer 0 (oddAfter false before) (closer ++ rest) = some ([], rest) := by
  refine closing?_self_append hc (fun he => ?_) (fun he => ?_)
  · subst he
    rw [← Bool.not_eq_true, oddAfter_iff]
    exact h
  · subst he
    rw [← Bool.not_eq_true, Text.startsWith_iff]
    exact h

theorem quiet_nil (e : Escape) (closer before rest : Text) : e.Quiet closer before rest [] := by
  cases e with
  | doubled => exact .nil
  | backslash => exact fun s u ht hu => absurd (List.append_eq_nil_iff.mp ht.symm).2 hu
  | never => exact fun s u ht hu => absurd (List.append_eq_nil_iff.mp ht.symm).2 hu

theorem quiet_iff (he : e ≠ doubled) : e.Quiet closer before rest t ↔
    ∀ s u, t = s ++ u → u ≠ [] → closer <+: u ++ rest →
      e = backslash ∧ (before ++ s).EndsEscaped := by
  cases e with
  | backslash => rfl
  | doubled => exact absurd rfl he
  | never => rfl

theorem quiet_cons (he : e ≠ doubled) : e.Quiet closer before rest (c :: t) ↔
    (closer <+: c :: (t ++ rest) → e = backslash ∧ before.EndsEscaped) ∧
      e.Quiet closer (before ++ [c]) rest t := by
  rw [quiet_iff he, quiet_iff he]
  constructor
  · refine fun h => ⟨fun hp => ?_, fun s u ht hu hp => ?_⟩
    · simpa using h [] (c :: t) rfl (by simp) hp
    · simpa using h (c :: s) u (by rw [ht]; rfl) hu hp
  · rintro ⟨hfirst, hlater⟩ s u ht hu hp
    cases s with
    | nil =>
      obtain rfl : c :: t = u := ht
      simpa using hfirst hp
    | cons a s =>
      obtain ⟨rfl, rfl⟩ := List.cons.inj ht
      simpa using hlater s u rfl hu hp

theorem Paired.closing? (hc : closer ≠ []) (h : Paired closer rest t) (odd : Bool) :
    doubled.closing? closer 0 odd (t ++ rest) =
      (doubled.closing? closer 0 (oddAfter odd t) rest).map fun q => (t ++ q.1, q.2) := by
  induction h generalizing odd with
  | nil => simp [oddAfter]
  | char free _ ih =>
    rw [List.cons_append, closing?_of_free free, ih, Option.map_map]
    rfl
  | pair _ ih =>
    rw [List.append_assoc, closing?_pair hc, ih, Option.map_map,
      oddAfter_append odd (closer ++ closer)]
    simp only [Function.comp_def, List.append_assoc]

/-- The search passes over what no closer ends. -/
theorem closing?_of_quiet (hc : closer.IsDelimiter)
    (h : e.Quiet closer before rest t) :
    e.closing? closer 0 (oddAfter false before) (t ++ rest) =
      (e.closing? closer 0 (oddAfter false (before ++ t)) rest).map fun q => (t ++ q.1, q.2) := by
  by_cases he : e = doubled
  · subst he
    rw [oddAfter_append]
    exact Paired.closing? hc.1 h _
  · induction t generalizing before with
    | nil => simp
    | cons c t ih =>
      obtain ⟨hfirst, hlater⟩ := (quiet_cons he).mp h
      have hstep : e.closing? closer 0 (oddAfter false before) (c :: (t ++ rest)) =
          (e.closing? closer 0 (oddAfter false (before ++ [c])) (t ++ rest)).map
            fun q => (c :: q.1, q.2) := by
        rw [oddAfter_concat]
        by_cases hp : closer <+: c :: (t ++ rest)
        · obtain ⟨rfl, hodd⟩ := hfirst hp
          rw [oddAfter_iff.mpr hodd]
          exact closing?_of_escaped hc hp
        · exact closing?_of_free hp
      rw [List.cons_append, hstep, ih hlater, Option.map_map, List.append_assoc]
      rfl

theorem paired_or_ends (hc : closer ≠ []) (t : Text) : Paired closer [] t ∨
    ∃ body rest, t = body ++ closer ++ rest ∧ Paired closer (closer ++ rest) body ∧
      ¬ closer <+: rest := by
  -- By the length of the text, since a pair takes many characters at once.
  induction hn : t.length using Nat.strong_induction_on generalizing t with
  | _ n ih =>
    subst hn
    by_cases hp : closer <+: t
    · obtain ⟨r, rfl⟩ := hp
      by_cases hr : closer <+: r
      · obtain ⟨u, rfl⟩ := hr
        have hlen : u.length < (closer ++ (closer ++ u)).length := by
          have := List.length_pos_iff.mpr hc
          simp only [List.length_append]
          omega
        rw [← List.append_assoc]
        rcases ih _ hlen u rfl with h | ⟨body, rest, rfl, h, hends⟩
        · exact .inl (.pair h)
        · exact .inr ⟨closer ++ closer ++ body, rest, by simp, .pair h, hends⟩
      · exact .inr ⟨[], r, rfl, .nil, hr⟩
    · cases t with
      | nil => exact .inl .nil
      | cons c t =>
        rcases ih _ (by simp) t rfl with h | ⟨body, rest, rfl, h, hends⟩
        · exact .inl (.char (by rwa [List.append_nil]) h)
        · exact .inr ⟨c :: body, rest, rfl, .char (by rwa [← List.append_assoc]) h, hends⟩

/-- A text is without an end of the literal, or has a first one. -/
theorem quiet_or_ends (e : Escape) (hc : closer ≠ []) (before t : Text) :
    e.Quiet closer before [] t ∨ ∃ body rest, t = body ++ closer ++ rest ∧
      e.Quiet closer before (closer ++ rest) body ∧ e.Ends closer (before ++ body) rest := by
  by_cases he : e = doubled
  · subst he
    exact paired_or_ends hc t
  · induction t generalizing before with
    | nil => exact .inl (quiet_nil ..)
    | cons c t ih =>
      by_cases hp : closer <+: c :: t → e = backslash ∧ before.EndsEscaped
      · rcases ih (before ++ [c]) with h | ⟨body, rest, rfl, h, hends⟩
        · exact .inl ((quiet_cons he).mpr ⟨by rwa [List.append_nil], h⟩)
        · refine .inr ⟨c :: body, rest, rfl, (quiet_cons he).mpr ⟨?_, h⟩, ?_⟩
          · rwa [← List.append_assoc]
          · rwa [← List.append_cons] at hends
      · obtain ⟨⟨r, hr⟩, hfree⟩ := Classical.not_imp.mp hp
        refine .inr ⟨[], r, hr.symm, quiet_nil .., ?_⟩
        cases e with
        | doubled => exact absurd rfl he
        | backslash => simpa [Ends] using hfree
        | never => trivial

theorem closing?_eq_some_of_quiet (hc : closer.IsDelimiter)
    (h : e.Quiet closer before (closer ++ rest) body)
    (hends : e.Ends closer (before ++ body) rest) :
    e.closing? closer 0 (oddAfter false before) (body ++ closer ++ rest) = some (body, rest) := by
  rw [List.append_assoc, closing?_of_quiet hc h, closing?_of_ends hc.1 hends]
  simp

theorem closing?_eq_none_of_quiet (hc : closer.IsDelimiter)
    (h : e.Quiet closer before [] t) : e.closing? closer 0 (oddAfter false before) t = none := by
  have hnil : e.closing? closer 0 (oddAfter false (before ++ t)) [] = none := by
    rw [closing?, List.isEmpty_eq_false_iff.mpr hc.1, Bool.false_and, if_neg Bool.false_ne_true]
  have := closing?_of_quiet hc h
  rwa [List.append_nil, hnil] at this

/-- The search finds the first closer that ends the literal. -/
theorem closing?_eq_some_iff (hc : closer.IsDelimiter) :
    e.closing? closer 0 (oddAfter false before) t = some (body, rest) ↔
      t = body ++ closer ++ rest ∧ e.Quiet closer before (closer ++ rest) body ∧
        e.Ends closer (before ++ body) rest := by
  refine ⟨fun h => ?_, fun ⟨ht, hq, hends⟩ => ht ▸ closing?_eq_some_of_quiet hc hq hends⟩
  rcases quiet_or_ends e hc.1 before t with hq | ⟨body', rest', rfl, hq, hends⟩
  · rw [closing?_eq_none_of_quiet hc hq] at h
    cases h
  · rw [closing?_eq_some_of_quiet hc hq hends] at h
    obtain ⟨rfl, rfl⟩ := Prod.mk.inj (Option.some.inj h)
    exact ⟨rfl, hq, hends⟩

theorem closing?_eq_none_iff (hc : closer.IsDelimiter) :
    e.closing? closer 0 (oddAfter false before) t = none ↔ e.Quiet closer before [] t := by
  refine ⟨fun h => ?_, closing?_eq_none_of_quiet hc⟩
  rcases quiet_or_ends e hc.1 before t with hq | ⟨body, rest, rfl, hq, hends⟩
  · exact hq
  · rw [closing?_eq_some_of_quiet hc hq hends] at h
    cases h

/-- The search for a closer that nothing escapes. -/
theorem cut?_eq_closing? (closer : Text) (odd : Bool) (t : Text) :
    Text.cut? closer t = never.closing? closer 0 odd t := by
  induction t generalizing odd with
  | nil => simp [Text.cut?, closing?]
  | cons c t ih =>
    rw [Text.cut?, closing?]
    cases Text.after? closer (c :: t) with
    | none => exact congrArg (Option.map fun q : Text × Text => (c :: q.1, q.2)) (ih _)
    | some r => rfl

end Escape

end CleanCopy
