import CleanCopy.Proofs.Text.Lines
import Mathlib.Data.List.Chain

namespace CleanCopy

namespace Text

/-- Every carriage return stands before a line feed. -/
def Paired : Text → Prop
  | [] => True
  | c :: cs => (c = '\r' → cs.head? = some '\n') ∧ Paired cs

instance decidablePaired : (t : Text) → Decidable t.Paired
  | [] => .isTrue trivial
  | c :: cs =>
    have := decidablePaired cs
    inferInstanceAs (Decidable ((c = '\r' → cs.head? = some '\n') ∧ Paired cs))

/-- Every carriage return stands before a line feed or at the very end. -/
def Loose (t : Text) : Prop := t.IsChain fun c d => c = '\r' → d = '\n'

theorem paired_iff {t : Text} : t.Paired ↔ t.Loose ∧ t.getLast? ≠ some '\r' := by
  induction t with
  | nil => simp [Paired, Loose]
  | cons c cs ih =>
    rw [Paired, ih]
    cases cs with
    | nil => simp [Loose]
    | cons d ds => simp [Loose, and_assoc]

theorem loose_append_feed {s t : Text} : Loose (s ++ '\n' :: t) ↔ s.Loose ∧ t.Loose := by
  have hfeed : Loose ('\n' :: t) ↔ t.Loose :=
    List.isChain_cons.trans (and_iff_right fun _ _ h => absurd h (by decide))
  rw [Loose, List.isChain_append, ← Loose, ← Loose, hfeed]
  exact and_congr_right fun _ => and_iff_left fun _ _ d hd _ => (Option.some.inj hd).symm

theorem loose_of_notMem {t : Text} (h : '\r' ∉ t) : t.Loose := by
  induction t with
  | nil => exact .nil
  | cons c cs ih =>
    obtain ⟨hc, hcs⟩ := not_or.mp (mt List.mem_cons.mpr h)
    exact (ih hcs).cons fun _ _ hr => absurd hr.symm hc

/-- What follows a carriage return holds a line feed, if it is anything. -/
theorem Loose.eq_nil {s t : Text} (h : Loose (s ++ '\r' :: t)) (hfeed : '\n' ∉ t) : t = [] := by
  cases t with
  | nil => rfl
  | cons d ds =>
    have hd := (List.isChain_append.mp h).2.1.rel rfl
    exact absurd (hd ▸ List.mem_cons_self) hfeed

end Text

/-- The line holds no carriage return but the one at its end. -/
def Line.Clear (l : Line) : Prop := '\r' ∉ l.text

namespace Line

variable {l : Line}

theorem Clear.loose_render (h : l.Clear) : l.render.Loose := by
  rw [render]
  split
  · refine List.isChain_append.mpr ⟨Text.loose_of_notMem h, List.isChain_singleton _, ?_⟩
    exact fun c hc _ _ hr => absurd (hr ▸ List.mem_of_getLast? hc) h
  · exact Text.loose_of_notMem h

theorem Whole.clear (hw : l.Whole) (h : l.render.Loose) : l.Clear := by
  intro hr
  obtain ⟨s, t, ht⟩ := List.append_of_mem hr
  have hfeed : '\n' ∉ t := fun hf => hw.no_feed (by simp [ht, hf])
  cases hcr : l.cr with
  | true =>
    rw [render, hcr, if_pos rfl, ht, List.append_assoc, List.cons_append] at h
    have := h.eq_nil (by simpa using hfeed)
    simp at this
  | false =>
    rw [render, hcr, if_neg Bool.false_ne_true, ht] at h
    rw [h.eq_nil hfeed] at ht
    exact hw.no_return hcr (by simp [ht])

end Line

namespace Document

/-- No line holds a carriage return but the one at its end. -/
def Clear (d : Document) : Prop := ∀ l ∈ d.lines, l.Clear

theorem loose_renderLines {ls : List Line} (h : ∀ l ∈ ls, l.Clear) : (renderLines ls).Loose := by
  induction ls with
  | nil => exact .nil
  | cons l ls ih =>
    have hl := (h l List.mem_cons_self).loose_render
    cases ls with
    | nil => exact hl
    | cons k ks => exact Text.loose_append_feed.mpr ⟨hl, ih fun k hk => h k (.tail _ hk)⟩

theorem clear_of_loose {ls : List Line} (hw : ∀ l ∈ ls, l.Whole) (h : (renderLines ls).Loose) :
    ∀ l ∈ ls, l.Clear := by
  induction ls with
  | nil => exact fun _ hl => absurd hl List.not_mem_nil
  | cons l ls ih =>
    have hl := hw l List.mem_cons_self
    have hw : ∀ k ∈ ls, k.Whole := fun k hk => hw k (.tail _ hk)
    cases ls with
    | nil => exact List.forall_mem_singleton.mpr (hl.clear h)
    | cons k ks =>
      obtain ⟨hfirst, hrest⟩ := Text.loose_append_feed.mp h
      exact List.forall_mem_cons.mpr ⟨hl.clear hfirst, ih hw hrest⟩

theorem loose_render_iff (d : Document) : d.render.Loose ↔ (renderLines d.lines).Loose := by
  rw [render]
  split
  · exact Text.loose_append_feed.trans (and_iff_left .nil)
  · rfl

theorem Clear.loose_render {d : Document} (h : d.Clear) : d.render.Loose :=
  d.loose_render_iff.mpr (loose_renderLines h)

theorem Clear.paired_render {d : Document} (h : d.Clear) (hc : d.closed = true) :
    d.render.Paired := by
  refine Text.paired_iff.mpr ⟨h.loose_render, ?_⟩
  obtain ⟨ls, closed⟩ := d
  obtain rfl : closed = true := hc
  cases ls with
  | nil => simp [render, renderLines]
  | cons l ls => simp [render]

theorem parse_clear {t : Text} (h : t.Loose) : (parse t).Clear := by
  refine clear_of_loose (parse_whole t) ((loose_render_iff _).mp ?_)
  rw [render_parse]
  exact h

theorem closed_parse {t : Text} (h : t.getLast? = some '\n') : (parse t).closed = true := by
  have hne : t.isEmpty = false := by
    cases t with
    | nil => cases h
    | cons => rfl
  rw [parse, hne, if_neg Bool.false_ne_true, if_pos h]

end Document

end CleanCopy
