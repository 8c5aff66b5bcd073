import CleanCopy.Proofs.Text.Trim
import CleanCopy.Scrub.Passes
import Mathlib.Data.List.Chain

namespace CleanCopy.Text

/-- No gap stands next to another one. -/
def Single (a b : Char) : Prop := isGap a = true → isGap b = false

/-- No gap stands next to another one or to punctuation. -/
def Close (a b : Char) : Prop :=
  (isGap a = true → isGap b = false ∧ isPunctuation b = false) ∧
    (isGap b = true → isPunctuation a = false)

/-- Code as compaction leaves it. -/
def IsTight (t : Text) : Prop := t.IsChain Close

/-- Code with single gaps and none around punctuation. -/
def tight (t : Text) : Text := t.collapse.tighten isPunctuation

theorem collapseFrom_isChain (inRun : Bool) (t : Text) :
    (collapseFrom inRun t).IsChain Single ∧
      (inRun = true → ∀ c, (collapseFrom inRun t).head? = some c → isGap c = false) := by
  induction t generalizing inRun with
  | nil => exact ⟨.nil, fun _ c h => by simp [collapseFrom] at h⟩
  | cons c cs ih =>
    rw [collapseFrom]
    by_cases hc : isGap c = true
    · rw [if_pos hc]
      cases inRun with
      | true => exact ih true
      | false =>
        refine ⟨(ih true).1.cons fun y hy _ => (ih true).2 rfl y hy, fun h => ?_⟩
        exact absurd h Bool.false_ne_true
    · rw [if_neg hc]
      refine ⟨(ih false).1.cons fun y _ h => absurd h hc, fun _ d hd => ?_⟩
      obtain rfl := Option.some.inj hd
      exact Bool.eq_false_iff.mpr hc

theorem collapseFrom_of_isChain {inRun : Bool} {t : Text} (h : t.IsChain Single)
    (hr : inRun = true → ∀ c, t.head? = some c → isGap c = false) : collapseFrom inRun t = t := by
  induction t generalizing inRun with
  | nil => rfl
  | cons c cs ih =>
    rw [collapseFrom]
    by_cases hc : isGap c = true
    · have hin : inRun = false := by
        by_contra hn
        have := hr (by simpa using hn) c rfl
        rw [hc] at this
        exact Bool.false_ne_true this.symm
      have hcs : ∀ d, cs.head? = some d → isGap d = false := fun d hd => h.rel_head? hd hc
      have hany : cs.head?.any isGap = false := by
        cases he : cs.head? with
        | none => rfl
        | some d => exact hcs d he
      subst hin
      rw [if_pos hc, hany, ih h.tail fun _ => hcs]
      rfl
    · rw [if_neg hc, ih h.tail fun h => absurd h Bool.false_ne_true]

theorem visible_collapseFrom (inRun : Bool) (t : Text) :
    (collapseFrom inRun t).visible = t.visible := by
  induction t generalizing inRun with
  | nil => rfl
  | cons c cs ih =>
    rw [collapseFrom]
    by_cases hc : isGap c = true
    · have hblank := isBlank_of_isGap hc
      rw [if_pos hc, visible_cons_of_blank hblank]
      cases inRun with
      | true => exact ih true
      | false =>
        rw [if_neg Bool.false_ne_true]
        by_cases hd : cs.head?.any isGap = true
        · rw [if_pos hd, visible_cons_of_blank (by decide), ih]
        · rw [if_neg hd, visible_cons_of_blank hblank, ih]
    · rw [if_neg hc]
      exact visible_cons_congr (ih false) c

section tighten
variable {p : Char → Bool} {touching : Bool} {c : Char} {cs t : Text}

theorem tightenFrom_of_not_gap (hc : isGap c = false) :
    tightenFrom p touching (c :: cs) = c :: tightenFrom p (p c) cs := by
  rw [tightenFrom, hc, if_neg Bool.false_ne_true]

theorem tightenFrom_of_dropped (hc : isGap c = true)
    (h : (touching || (cs.dropWhile isGap).head?.any p) = true) :
    tightenFrom p touching (c :: cs) = tightenFrom p touching cs := by
  rw [tightenFrom, if_pos hc, if_pos h]

theorem tightenFrom_of_kept (hc : isGap c = true)
    (h : (touching || (cs.dropWhile isGap).head?.any p) = false) :
    tightenFrom p touching (c :: cs) = c :: tightenFrom p false cs := by
  rw [tightenFrom, if_pos hc, h, if_neg Bool.false_ne_true]

end tighten

theorem tightenFrom_isTight (touching : Bool) {t : Text} (h : t.IsChain Single) :
    IsTight (tightenFrom isPunctuation touching t) ∧
      (touching = true → ∀ c, (tightenFrom isPunctuation touching t).head? = some c →
        isGap c = false) := by
  induction t generalizing touching with
  | nil => exact ⟨.nil, fun _ c h => by simp [tightenFrom] at h⟩
  | cons c cs ih =>
    by_cases hc : isGap c = true
    · cases hd : touching || (cs.dropWhile isGap).head?.any isPunctuation with
      | true =>
        rw [tightenFrom_of_dropped hc hd]
        exact ih touching h.tail
      | false =>
        rw [tightenFrom_of_kept hc hd]
        obtain ⟨ht, hp⟩ := Bool.or_eq_false_iff.mp hd
        refine ⟨(ih false h.tail).1.cons fun y hy => ?_, fun h => ?_⟩
        · cases cs with
          | nil => simp [tightenFrom] at hy
          | cons d ds =>
            have hgd : isGap d = false := h.rel_head? rfl hc
            rw [tightenFrom_of_not_gap hgd] at hy
            obtain rfl := Option.some.inj hy
            rw [List.dropWhile_cons_of_neg (by simp [hgd])] at hp
            exact ⟨fun _ => ⟨hgd, hp⟩, fun hg => absurd (hgd.symm.trans hg) Bool.false_ne_true⟩
        · exact absurd (ht.symm.trans h) Bool.false_ne_true
    · have hc := Bool.eq_false_iff.mpr hc
      rw [tightenFrom_of_not_gap hc]
      obtain ⟨hi, hh⟩ := ih (isPunctuation c) h.tail
      refine ⟨hi.cons fun y hy => ⟨fun hg => absurd (hc.symm.trans hg) Bool.false_ne_true, ?_⟩, ?_⟩
      · intro hy'
        by_contra hpc
        have := hh (by simpa using hpc) y hy
        exact Bool.false_ne_true (this.symm.trans hy')
      · intro _ d hd
        obtain rfl := Option.some.inj hd
        exact hc

theorem tightenFrom_of_isTight {touching : Bool} {t : Text} (h : IsTight t)
    (ht : touching = true → ∀ c, t.head? = some c → isGap c = false) :
    tightenFrom isPunctuation touching t = t := by
  induction t generalizing touching with
  | nil => rfl
  | cons c cs ih =>
    by_cases hc : isGap c = true
    · have hin : touching = false := by
        by_contra hn
        exact Bool.false_ne_true ((ht (by simpa using hn) c rfl).symm.trans hc)
      have hd : (cs.dropWhile isGap).head?.any isPunctuation = false := by
        cases cs with
        | nil => rfl
        | cons d ds =>
          obtain ⟨hg, hp⟩ := (h.rel_head? rfl : Close c d).1 hc
          rw [List.dropWhile_cons_of_neg (by simp [hg])]
          exact hp
      rw [tightenFrom_of_kept hc (by rw [hin, hd]; rfl), ih h.tail]
      exact fun h => absurd h Bool.false_ne_true
    · have hc := Bool.eq_false_iff.mpr hc
      rw [tightenFrom_of_not_gap hc, ih h.tail]
      intro hp d hd
      by_contra hg
      have := (h.rel_head? hd : Close c d).2 (by simpa using hg)
      exact Bool.false_ne_true (this.symm.trans hp)

theorem visible_tightenFrom (p : Char → Bool) (touching : Bool) (t : Text) :
    (tightenFrom p touching t).visible = t.visible := by
  induction t generalizing touching with
  | nil => rfl
  | cons c cs ih =>
    by_cases hc : isGap c = true
    · cases hd : touching || (cs.dropWhile isGap).head?.any p with
      | true => rw [tightenFrom_of_dropped hc hd, ih, visible_cons_of_blank (isBlank_of_isGap hc)]
      | false =>
        rw [tightenFrom_of_kept hc hd]
        exact visible_cons_congr (ih false) c
    · rw [tightenFrom_of_not_gap (Bool.eq_false_iff.mpr hc)]
      exact visible_cons_congr (ih (p c)) c

theorem tight_isTight (t : Text) : IsTight t.tight :=
  (tightenFrom_isTight false (collapseFrom_isChain false t).1).1

theorem IsTight.single {t : Text} (h : IsTight t) : t.IsChain Single :=
  List.IsChain.imp (fun _ _ h hg => (h.1 hg).1) h

theorem tight_of_isTight {t : Text} (h : IsTight t) : t.tight = t := by
  rw [tight, collapse, collapseFrom_of_isChain h.single (fun h => absurd h Bool.false_ne_true),
    tighten, tightenFrom_of_isTight h (fun h => absurd h Bool.false_ne_true)]

theorem visible_tight (t : Text) : t.tight.visible = t.visible := by
  rw [tight, tighten, visible_tightenFrom, collapse, visible_collapseFrom]

end CleanCopy.Text
