import CleanCopy.Proofs.Scrub.Loss
import Mathlib.Data.List.Flatten

namespace CleanCopy

open Piece

variable {x : Lexicon} {cls : CommentClass} {odd : Bool} {k k' : Carry} {ps : List Piece}

namespace Piece

theorem visible_wording_without_sublist (cls : CommentClass) (ps : List Piece) :
    (wording (without cls ps)).visible.Sublist (wording ps).visible :=
  (List.filter_sublist.flatMap text).filter _

/-- The comments of a class are blank if nothing visible goes with them. -/
theorem isBlank_of_visible_without (h : (wording (without cls ps)).visible = (wording ps).visible) :
    ∀ p ∈ ps, p.isComment cls = true → p.text.isBlank = true := by
  induction ps with
  | nil => exact fun p hp => absurd hp List.not_mem_nil
  | cons p ps ih =>
    cases hp : p.isComment cls with
    | false =>
      rw [without_cons_of_not_comment hp, wording_cons, wording_cons, Text.visible_append,
        Text.visible_append] at h
      exact List.forall_mem_cons.mpr ⟨fun hc => absurd (hp.symm.trans hc) Bool.false_ne_true,
        ih (List.append_cancel_left h)⟩
    | true =>
      rw [without_cons_of_comment hp, wording_cons, Text.visible_append] at h
      have hle := (visible_wording_without_sublist cls ps).length_le
      have hnil : p.text.visible = [] := by
        rw [← List.length_eq_zero_iff]
        have := congrArg List.length h
        rw [List.length_append] at this
        omega
      rw [hnil, List.nil_append] at h
      exact List.forall_mem_cons.mpr ⟨fun _ => Text.visible_eq_nil_iff.mp hnil, ih h⟩

theorem lacks_flatMap_iff {rs : List Row} :
    Lacks cls (rs.flatMap Row.pieces) ↔ ∀ r ∈ rs, Lacks cls r.pieces := by
  simp only [Lacks, List.mem_flatMap]
  constructor
  · exact fun h r hr p hp => h p ⟨r, hr, hp⟩
  · rintro h p ⟨r, hr, hp⟩
    exact h r hr p hp

end Piece

namespace Lexicon

/-- Only a comment that goes on over a line can be blank there. -/
theorem Reads.lacks_of_isBlank (hx : x.Regular) (h : x.Reads odd ps k)
    (hb : ∀ p ∈ ps, p.isComment cls = true → p.text.isBlank = true) :
    Lacks cls ps ∧ k ≠ .block cls := by
  induction h with
  | done => exact ⟨fun p hp => absurd hp List.not_mem_nil, nofun⟩
  | code _ _ ih =>
    obtain ⟨hl, hk⟩ := ih fun p hp => hb p (List.mem_cons_of_mem _ hp)
    exact ⟨lacks_cons.mpr ⟨rfl, hl⟩, hk⟩
  | @closed odd p ps k first later ih =>
    obtain ⟨hl, hk⟩ := ih fun p hp => hb p (List.mem_cons_of_mem _ hp)
    refine ⟨lacks_cons.mpr ⟨Bool.eq_false_iff.mpr fun hp => ?_, hl⟩, hk⟩
    have := hb p List.mem_cons_self hp
    rw [(sealed_of_lexeme? first).isBlank_text hx.unbroken] at this
    exact Bool.false_ne_true this
  | @unclosed odd p k last =>
    have hp : p.isComment cls = false := by
      refine Bool.eq_false_iff.mpr fun hp => ?_
      have := hb p List.mem_cons_self hp
      rw [isBlank_of_unclosed hx.unbroken last] at this
      exact Bool.false_ne_true this
    refine ⟨lacks_cons.mpr ⟨hp, nofun⟩, ?_⟩
    rintro rfl
    have hwithout : (Carry.block cls).without cls = _ := without_of_unclosed last
    rw [hp, if_neg Bool.false_ne_true, Carry.without, if_pos rfl] at hwithout
    cases hwithout

theorem Begins.lacks_of_isBlank (hx : x.Regular) (h : x.Begins k ps k') (hk : k ≠ .block cls)
    (hb : ∀ p ∈ ps, p.isComment cls = true → p.text.isBlank = true) :
    Lacks cls ps ∧ k' ≠ .block cls := by
  cases h with
  | code h => exact h.lacks_of_isBlank hx hb
  | closed fits first later =>
    obtain ⟨hl, hk'⟩ := later.lacks_of_isBlank hx fun p hp => hb p (List.mem_cons_of_mem _ hp)
    have hp := (isComment_of_resume? first cls).trans (decide_eq_false hk)
    exact ⟨lacks_cons.mpr ⟨hp, hl⟩, hk'⟩
  | unclosed fits last =>
    have hp := (isComment_of_resume? last cls).trans (decide_eq_false hk)
    exact ⟨lacks_cons.mpr ⟨hp, nofun⟩, hk⟩

theorem lacks_of_isBlank (hx : x.Regular) (hfits : k.Fits x) (hk : k ≠ .block cls) {ls : List Line}
    (hb : ∀ r ∈ x.rowsFrom k ls, ∀ p ∈ r.pieces, p.isComment cls = true → p.text.isBlank = true) :
    ∀ r ∈ x.rowsFrom k ls, Lacks cls r.pieces := by
  induction ls generalizing k with
  | nil => exact fun r hr => absurd hr List.not_mem_nil
  | cons l ls ih =>
    rw [rowsFrom] at hb ⊢
    obtain ⟨hfirst, hlater⟩ := List.forall_mem_cons.mp hb
    have hbegins := (begins_scan hx.filled hfits l.text).1
    obtain ⟨hl, hk'⟩ := hbegins.lacks_of_isBlank hx hk hfirst
    exact List.forall_mem_cons.mpr ⟨hl, ih hbegins.fits hk' hlater⟩

end Lexicon

namespace Document

theorem stripComments_of_lacks {d : Document} (h : ∀ r ∈ x.rows d, Lacks cls r.pieces) :
    d.stripComments x cls = d := by
  have hlines : (x.rows d).filterMap (·.withoutComments cls) = d.lines := by
    rw [← x.rows_map_line d, ← List.filterMap_eq_map]
    exact List.filterMap_congr fun r hr => Row.withoutComments_of_lacks (h r hr)
  rw [stripComments, hlines]
  rfl

/-- Stripping takes away something visible, if there is a comment at all. -/
theorem lacks_of_visible_stripComments (hx : x.Regular) {t : Text}
    (h : ((parse t).stripComments x cls).visible = t.visible) :
    Lacks cls ((x.rows (parse t)).flatMap Row.pieces) := by
  rw [visible_stripComments _ hx, ← Kind.visible_wording_rows hx t] at h
  have hb := isBlank_of_visible_without h
  rw [lacks_flatMap_iff]
  refine Lexicon.lacks_of_isBlank hx (k := .code) trivial nofun fun r hr p hp => ?_
  exact hb p (List.mem_flatMap.mpr ⟨r, hr, hp⟩)

theorem removeSpans_nil (d : Document) : d.removeSpans [] = d := by
  have hlines (offset : Nat) (ls : List Line) : Line.outsideAll [] offset ls = ls := by
    induction ls generalizing offset with
    | nil => rfl
    | cons l ls ih =>
      rw [Line.outsideAll, ih]
      rfl
  rw [removeSpans_eq (.nil _), outside, hlines]
  rfl

theorem lacks_of_visible_removeSpans {opener closer : Text} {keep : Text → Bool} {t : Text}
    (ho : opener.isBlank = false)
    (h : ((parse t).removeSpans (Text.blockSpans opener closer keep 0 t)).visible = t.visible) :
    Lacks .plain (Text.blockPieces opener closer keep t) := by
  rw [removeSpans_blockSpans_eq, visible_outside, render_parse, Text.outside_blockSpans] at h
  have hv := h.trans (congrArg Text.visible (Text.wording_blockPieces opener closer keep t).symm)
  intro p hp
  refine Bool.eq_false_iff.mpr fun hc => ?_
  obtain ⟨u, hu⟩ := Text.exists_text_of_mem_blockPieces hp hc
  have hb := isBlank_of_visible_without hv p hp hc
  rw [hu, Text.isBlank_append, ho] at hb
  exact Bool.false_ne_true hb

end Document

namespace Kind

variable (k : Kind) (t : Text)

theorem lacks_of_visible_scrub (h : (k.scrub .minimal t).visible = t.visible) :
    Lacks .plain (k.pieces t) := by
  replace h := (Document.visible_render _).symm.trans h
  cases k with
  | cSharp => exact Document.lacks_of_visible_stripComments Lexicon.cSharp_regular h
  | typeScript => exact Document.lacks_of_visible_stripComments Lexicon.typeScript_regular h
  | python => exact Document.lacks_of_visible_stripComments Lexicon.python_regular h
  | html => exact Document.lacks_of_visible_removeSpans (by decide) h
  | css => exact Document.lacks_of_visible_removeSpans (by decide) h

theorem scrub_minimal_of_lacks (h : Lacks .plain (k.pieces t)) : k.scrub .minimal t = t := by
  have hstrip {x : Lexicon} (h : Lacks .plain ((x.rows (Document.parse t)).flatMap Row.pieces)) :
      ((Document.parse t).stripComments x .plain).render = t := by
    rw [Document.stripComments_of_lacks (lacks_flatMap_iff.mp h), Document.render_parse]
  have hspans {opener closer : Text} {keep : Text → Bool}
      (h : Lacks .plain (Text.blockPieces opener closer keep t)) :
      ((Document.parse t).removeSpans (Text.blockSpans opener closer keep 0 t)).render = t := by
    rw [(Text.blockSpans_eq_nil_iff ..).mpr h, Document.removeSpans_nil, Document.render_parse]
  cases k with
  | cSharp | typeScript | python => exact hstrip h
  | html | css => exact hspans h

/-- A text that scrubbing leaves alone is one without comments. -/
theorem scrub_minimal_eq_iff : k.scrub .minimal t = t ↔ Lacks .plain (k.pieces t) :=
  ⟨fun h => k.lacks_of_visible_scrub t (congrArg Text.visible h), k.scrub_minimal_of_lacks t⟩

theorem visible_scrub_minimal_sublist : (k.scrub .minimal t).visible.Sublist t.visible := by
  obtain ⟨hscrub, hpieces⟩ := k.visible_scrub .minimal t rfl rfl
  rw [hscrub, ← hpieces]
  exact visible_wording_without_sublist .plain _

/-- Each pass takes away something visible until no comment is left. -/
theorem lacks_iterate_scrub_minimal {n : Nat} (h : t.visible.length ≤ n) :
    Lacks .plain (k.pieces ((k.scrub .minimal)^[n] t)) := by
  induction n generalizing t with
  | zero =>
    have hsub := k.visible_scrub_minimal_sublist t
    rw [List.length_eq_zero_iff.mp (Nat.le_zero.mp h)] at hsub
    refine k.lacks_of_visible_scrub t ?_
    rw [List.sublist_nil.mp hsub, List.length_eq_zero_iff.mp (Nat.le_zero.mp h)]
  | succ n ih =>
    by_cases hl : Lacks .plain (k.pieces t)
    · rw [Function.iterate_fixed (k.scrub_minimal_of_lacks t hl)]
      exact hl
    · have hsub := k.visible_scrub_minimal_sublist t
      have hne : (k.scrub .minimal t).visible.length ≠ t.visible.length := fun heq =>
        hl (k.lacks_of_visible_scrub t (hsub.eq_of_length heq))
      have hle := hsub.length_le
      exact ih _ (by omega)

/-- A second pass takes away the comments that the first one has joined together, if it has, and
with as many passes as there are visible characters no comment is left. -/
theorem scrub_minimal_again :
    (k.scrub .minimal (k.scrub .minimal t) = k.scrub .minimal t ↔
      Lacks .plain (k.pieces (k.scrub .minimal t))) ∧
    Lacks .plain (k.pieces ((k.scrub .minimal)^[t.visible.length] t)) :=
  ⟨k.scrub_minimal_eq_iff _, k.lacks_iterate_scrub_minimal t (Nat.le_refl _)⟩

/-- What stands before and after a comment makes up another one, or the opener of another literal. -/
theorem scrub_minimal_joins :
    let verbatim : Text := "@/* a */\"b\\\" // c\"".toList
    let markup : Text := "<!<!-- a -->-- b -->".toList
    let style : Text := "//* a */* b */".toList
    cSharp.scrub .minimal (cSharp.scrub .minimal verbatim) ≠ cSharp.scrub .minimal verbatim ∧
      html.scrub .minimal (html.scrub .minimal markup) ≠ html.scrub .minimal markup ∧
      css.scrub .minimal (css.scrub .minimal style) ≠ css.scrub .minimal style := by
  decide +kernel

end Kind

end CleanCopy
