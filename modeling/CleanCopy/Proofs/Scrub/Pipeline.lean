import CleanCopy.Proofs.Scrub.Pass
import CleanCopy.Proofs.Text.Lists

namespace CleanCopy

open Piece

/-- A document that is read back as it was written, but perhaps for an empty line of code at its end. -/
structure Document.Proper (x : Lexicon) (d : Document) : Prop where
  whole : ∀ l ∈ d.lines, l.Whole
  last : d.closed = false → ∀ r, (x.rows d).getLast? = some r → r.before.inLiteral = true →
    r.line ≠ ⟨[], false⟩

variable {x : Lexicon} {d : Document}

theorem Document.parse_proper (x : Lexicon) (t : Text) : (parse t).Proper x where
  whole := parse_whole t
  last hc r hr _ hl := by
    apply getLast?_parse hc
    rw [← x.rows_map_line (parse t), List.getLast?_map, hr, Option.map_some, hl]

namespace Pass

/-- Where the rows that are kept end in an open literal, no row behind them was dropped. -/
theorem getLast?_filterMap (P : Pass x) (hx : x.Regular) {k : Carry} (hk : k.Fits x) {ls : List Line}
    {r' : Row} (h : ((x.rowsFrom k ls).filterMap P.row).getLast? = some r')
    (ho : r'.after.inLiteral = true) :
    ∃ r, (x.rowsFrom k ls).getLast? = some r ∧ r.Read x ∧ P.row r = some r' := by
  induction ls generalizing k with
  | nil => cases h
  | cons l ls ih =>
    rw [Lexicon.rowsFrom] at h ⊢
    set r : Row := ⟨l, k, (x.scan k l.text).pieces, (x.scan k l.text).after⟩
    obtain ⟨hb, hw, hm⟩ := Lexicon.begins_scan hx.filled hk l.text
    have hr : r.Read x := ⟨hb, hw, hm⟩
    change ((r :: x.rowsFrom r.after ls).filterMap P.row).getLast? = some r' at h
    change ∃ q, (r :: x.rowsFrom r.after ls).getLast? = some q ∧ q.Read x ∧ P.row q = some r'
    cases hrest : (x.rowsFrom r.after ls).filterMap P.row with
    | cons q qs =>
      have hlast : ((x.rowsFrom r.after ls).filterMap P.row).getLast? = some r' := by
        cases hrow : P.row r with
        | none => rwa [List.filterMap_cons_none hrow] at h
        | some s =>
          rw [List.filterMap_cons_some hrow] at h
          rw [hrest] at h ⊢
          exact h
      obtain ⟨q', hq, hread⟩ := ih hb.fits hlast
      exact ⟨q', by rw [List.getLast?_cons, hq]; rfl, hread⟩
    | nil =>
      have hrow : P.row r = some r' := by
        cases hrow : P.row r with
        | none =>
          rw [List.filterMap_cons_none hrow, hrest] at h
          cases h
        | some s =>
          rw [List.filterMap_cons_some hrow, hrest] at h
          exact h
      cases ls with
      | nil => exact ⟨r, rfl, hr, hrow⟩
      | cons m ms =>
        have hq := Lexicon.rowsFrom_read hx.filled hb.fits (m :: ms) _ List.mem_cons_self
        have hnone := List.filterMap_eq_nil_iff.mp hrest _ List.mem_cons_self
        have hout : r.after.inLiteral = false := (P.dropped hq hnone).outside
        rw [(P.kept hr hrow).after, P.inLiteral_carry, hout] at ho
        cases ho

theorem apply_proper (P : Pass x) (hx : x.Regular) (h : d.Proper x) : (P.apply d).Proper x where
  whole l hl := by
    obtain ⟨r', hr', rfl⟩ := List.mem_map.mp hl
    obtain ⟨r, hr, hrow⟩ := List.mem_filterMap.mp hr'
    refine (P.kept (x.rows_read hx.filled d r hr) hrow).whole (h.whole _ ?_)
    rw [← x.rows_map_line d]
    exact List.mem_map_of_mem hr
  last hc r' hlast hbefore hline := by
    rw [P.rows_apply hx] at hlast
    have hread : r'.Read x := by
      obtain ⟨r, hr, hrow⟩ := List.mem_filterMap.mp (List.mem_of_getLast? hlast)
      exact (P.kept (x.rows_read hx.filled d r hr) hrow).read
    have hafter : r'.after = r'.before := by
      refine hread.begins.after_of_isBlank hx ?_
      rw [hread.spells, hline]
      rfl
    obtain ⟨r, hr, hr', hrow⟩ := P.getLast?_filterMap hx (k := .code) trivial hlast
      (hafter ▸ hbefore)
    have hk := P.kept hr' hrow
    have hin : r.before.inLiteral = true := by
      rw [hk.before, P.inLiteral_carry] at hbefore
      exact hbefore
    refine h.last hc r hr hin ?_
    have htext : r.line.text = [] := hk.empty hin (congrArg Line.text hline)
    have hcr : r.line.cr = false := hk.cr ▸ congrArg Line.cr hline
    rw [← htext, ← hcr]

/-- Passes in order. -/
def applyAll (Ps : List (Pass x)) (d : Document) : Document := Ps.foldl (fun d P => P.apply d) d

variable (Ps : List (Pass x))

theorem applyAll_proper (hx : x.Regular) (h : d.Proper x) : (applyAll Ps d).Proper x := by
  induction Ps generalizing d with
  | nil => exact h
  | cons P Ps ih => exact ih (P.apply_proper hx h)

theorem literals_applyAll (hx : x.Regular) (d : Document) :
    List.Forall₂ x.SameLiteral ((x.rows d).flatMap Row.literals)
      ((x.rows (applyAll Ps d)).flatMap Row.literals) := by
  induction Ps generalizing d with
  | nil => exact x.sameLiterals_refl _
  | cons P Ps ih =>
    refine Lexicon.sameLiterals_trans ?_ (ih (P.apply d))
    rw [P.rows_apply hx]
    exact P.literals_filterMap (x.rows_read hx.filled d)

theorem visibleCode_applyAll (hx : x.Regular) (d : Document) :
    visibleCode ((x.rows (applyAll Ps d)).flatMap Row.pieces) =
      visibleCode ((x.rows d).flatMap Row.pieces) := by
  induction Ps generalizing d with
  | nil => rfl
  | cons P Ps ih =>
    refine (ih (P.apply d)).trans ?_
    rw [P.rows_apply hx]
    exact P.visibleCode_filterMap (x.rows_read hx.filled d)

/-- The pass has nothing to do on the row. -/
def Fixes (P : Pass x) (r : Row) : Prop := P.row r = some r

/-- Once is enough. -/
def Idempotent (P : Pass x) : Prop := ∀ ⦃r r' : Row⦄, r.Read x → P.row r = some r' → P.Fixes r'

/-- Pass `Q` makes no new work for pass `P`. -/
def Respects (Q P : Pass x) : Prop :=
  ∀ ⦃r r' : Row⦄, r.Read x → P.Fixes r → Q.row r = some r' → P.Fixes r'

theorem apply_of_fixes {P : Pass x} (h : ∀ r ∈ x.rows d, P.Fixes r) : P.apply d = d := by
  have hrows : (x.rows d).filterMap P.row = x.rows d := by
    rw [List.filterMap_congr h, List.filterMap_some]
  rw [apply, hrows, x.rows_map_line]
  rfl

/-- A pass that leaves a document as it is leaves each row as it is. -/
theorem apply_eq_self_iff (P : Pass x) (hx : x.Regular) :
    P.apply d = d ↔ ∀ r ∈ x.rows d, P.Fixes r := by
  refine ⟨fun h => ?_, apply_of_fixes⟩
  have hrows := P.rows_apply hx d
  rw [h] at hrows
  exact List.forall_of_filterMap_eq_self hrows.symm

theorem Idempotent.apply_apply {P : Pass x} (hi : P.Idempotent) (hx : x.Regular) (d : Document) :
    P.apply (P.apply d) = P.apply d := by
  refine apply_of_fixes fun r' hr' => ?_
  rw [P.rows_apply hx] at hr'
  obtain ⟨r, hr, hrow⟩ := List.mem_filterMap.mp hr'
  exact hi (x.rows_read hx.filled d r hr) hrow

theorem applyAll_of_fixes {Ps : List (Pass x)} (h : ∀ P ∈ Ps, ∀ r ∈ x.rows d, P.Fixes r) :
    applyAll Ps d = d := by
  induction Ps with
  | nil => rfl
  | cons P Ps ih =>
    rw [applyAll, List.foldl_cons, apply_of_fixes (h P List.mem_cons_self)]
    exact ih fun Q hQ => h Q (List.mem_cons_of_mem _ hQ)

theorem fixes_applyAll_of_respects (hx : x.Regular) {P : Pass x} {Ps : List (Pass x)}
    (hP : ∀ Q ∈ Ps, Q.Respects P) (h : ∀ r ∈ x.rows d, P.Fixes r) :
    ∀ r ∈ x.rows (applyAll Ps d), P.Fixes r := by
  induction Ps generalizing d with
  | nil => exact h
  | cons Q Ps ih =>
    refine ih (fun R hR => hP R (List.mem_cons_of_mem _ hR)) fun r' hr' => ?_
    rw [Q.rows_apply hx] at hr'
    obtain ⟨r, hr, hrow⟩ := List.mem_filterMap.mp hr'
    exact hP Q List.mem_cons_self (x.rows_read hx.filled d r hr) (h r hr) hrow

/-- What passes have gone over, each has nothing left to do on. -/
theorem fixes_applyAll (hx : x.Regular) {Ps : List (Pass x)} (hi : ∀ P ∈ Ps, P.Idempotent)
    (hr : Ps.Pairwise fun P Q => Q.Respects P) (d : Document) :
    ∀ P ∈ Ps, ∀ r ∈ x.rows (applyAll Ps d), P.Fixes r := by
  induction Ps generalizing d with
  | nil => exact fun P hP => absurd hP List.not_mem_nil
  | cons P Ps ih =>
    obtain ⟨hP, hPs⟩ := List.pairwise_cons.mp hr
    intro Q hQ
    rcases List.mem_cons.mp hQ with rfl | hQ
    · refine fixes_applyAll_of_respects hx hP (d := Q.apply d) fun r' hr' => ?_
      rw [Q.rows_apply hx] at hr'
      obtain ⟨r, hr, hrow⟩ := List.mem_filterMap.mp hr'
      exact hi Q List.mem_cons_self (x.rows_read hx.filled d r hr) hrow
    · exact ih (fun R hR => hi R (List.mem_cons_of_mem _ hR)) hPs (P.apply d) Q hQ

end Pass

namespace Document

/-- A document that is written and read again begins with its own rows. -/
theorem rows_parse_render_isPrefix (x : Lexicon) (hw : ∀ l ∈ d.lines, l.Whole) :
    x.rows (parse d.render) <+: x.rows d := by
  rcases parse_render hw with hl | ⟨-, hl⟩
  · rw [Lexicon.rows, Lexicon.rows, hl]
  · rw [Lexicon.rows, Lexicon.rows, hl]
    exact x.rowsFrom_prefix .code (List.prefix_append _ _)

/-- A document that is written and read again has the same rows, but perhaps for an empty one at its
end that holds no piece. -/
theorem rows_parse_render (hx : x.Regular) (h : d.Proper x) :
    ∃ rs, x.rows d = x.rows (parse d.render) ++ rs ∧
      rs.flatMap Row.literals = [] ∧ visibleCode (rs.flatMap Row.pieces) = [] := by
  rcases parse_render h.whole with hl | ⟨hc, hl⟩
  · refine ⟨[], ?_, rfl, rfl⟩
    rw [List.append_nil, Lexicon.rows, Lexicon.rows, hl]
  · obtain ⟨rs, hrs⟩ := rows_parse_render_isPrefix x h.whole
    have hlines : rs.map Row.line = [⟨[], false⟩] := by
      have := congrArg (List.map Row.line) hrs
      rw [List.map_append, x.rows_map_line, x.rows_map_line, hl] at this
      exact List.append_cancel_left this
    obtain ⟨r, rfl, hr⟩ := List.map_eq_singleton_iff.mp hlines
    have hread : r.Read x := x.rows_read hx.filled d r (by rw [← hrs]; simp)
    have hlast : (x.rows d).getLast? = some r := by rw [← hrs, List.getLast?_concat]
    have hin : r.before.inLiteral = false := by
      by_contra hin
      exact h.last hc r hlast (by simpa using hin) hr
    have hblank : (wording r.pieces).isBlank = true := by rw [hread.spells, hr]; rfl
    refine ⟨[r], hrs.symm, ?_, ?_⟩
    · rw [List.flatMap_singleton]
      exact Row.literals_of_eq_nil (hread.begins.literals_of_isBlank hx hblank hin)
    · rw [List.flatMap_singleton]
      exact visibleCode_of_isBlank hblank

theorem render_applyAll (hx : x.Regular) {Ps : List (Pass x)} (h : d.Proper x)
    (hf : ∀ P ∈ Ps, ∀ r ∈ x.rows d, P.Fixes r) :
    (Pass.applyAll Ps (parse d.render)).render = d.render := by
  obtain ⟨rs, hrs, -⟩ := rows_parse_render hx h
  rw [Pass.applyAll_of_fixes fun P hP r hr => hf P hP r (hrs ▸ List.mem_append_left rs hr)]
  exact render_parse d.render

end Document

end CleanCopy
