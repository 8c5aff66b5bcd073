import CleanCopy.Lex.Languages
import CleanCopy.Proofs.Scrub.Pass
import CleanCopy.Scrub.Passes

namespace CleanCopy

namespace Row

/-- A marker line that begins outside literals; these go. -/
def isRegion (r : Row) : Bool := !r.before.inLiteral && r.line.text.isRegionMarker

/-- The row leaves open what was open before it. -/
def IsLevel (r : Row) : Prop := r.after = r.before

instance (r : Row) : Decidable r.IsLevel := inferInstanceAs (Decidable (_ = _))

theorem IsLevel.after_of_isRegion {r : Row} (h : r.IsLevel) (hr : r.isRegion = true) :
    r.after.inLiteral = false := by
  rw [isRegion, Bool.and_eq_true, Bool.not_eq_true'] at hr
  rw [h]
  exact hr.1

end Row

variable {x : Lexicon} {k : Carry} {ls : List Line} {pre post : List Row} {r s : Row}
  {d : Document}

/-- Where rows go that are level, those that stay are read as before, up to the first row that goes
and is not. -/
theorem Lexicon.rowsFrom_filter_append (x : Lexicon) (keep : Row → Bool)
    (h : x.rowsFrom k ls = pre ++ post) (hp : ∀ r ∈ pre, keep r = false → r.IsLevel) :
    ∃ k', x.rowsFrom k' (post.map Row.line) = post ∧
      x.rowsFrom k (((pre ++ post).filter keep).map Row.line) =
        pre.filter keep ++ x.rowsFrom k' ((post.filter keep).map Row.line) := by
  induction pre generalizing k ls with
  | nil =>
    have hpost : x.rowsFrom k ls = post := h
    refine ⟨k, ?_, rfl⟩
    rw [← hpost, x.rowsFrom_map_line]
  | cons r pre ih =>
    cases ls with
    | nil => cases h
    | cons l ls =>
      obtain ⟨rfl, hrest⟩ := List.cons.inj h
      obtain ⟨hlevel, hp⟩ := List.forall_mem_cons.mp hp
      obtain ⟨k', hpost, hrows⟩ := ih hrest hp
      refine ⟨k', hpost, ?_⟩
      rw [List.cons_append, List.filter_cons, List.filter_cons]
      split
      · rw [List.map_cons, rowsFrom, hrows]
        rfl
      · rename_i hgoes
        rw [← hrows]
        exact congrArg (x.rowsFrom · _) (hlevel (by simpa using hgoes)).symm

namespace Document

theorem removeRegions_eq (x : Lexicon) (d : Document) :
    d.removeRegions x = d.withLines (((x.rows d).filter (!·.isRegion)).map Row.line) := by
  rw [removeRegions]
  congr 3
  funext r
  rw [Row.isRegion, Bool.not_and, Bool.not_not]

theorem rows_removeRegions (h : x.rows d = pre ++ post)
    (hp : ∀ r ∈ pre, r.isRegion = true → r.IsLevel) :
    ∃ k', x.rowsFrom k' (post.map Row.line) = post ∧ x.rows (d.removeRegions x) =
      pre.filter (!·.isRegion) ++ x.rowsFrom k' ((post.filter (!·.isRegion)).map Row.line) := by
  have := x.rowsFrom_filter_append (!·.isRegion) h fun r hr hgoes => hp r hr (by simpa using hgoes)
  rwa [← h, show x.rowsFrom .code _ = x.rows (d.removeRegions x) by rw [removeRegions_eq]; rfl] at this

/-- A marker line that is not level leaves the line below it to begin with something else. -/
theorem rows_removeRegions_cons (h : x.rows d = pre ++ r :: s :: post)
    (hp : ∀ q ∈ pre, q.isRegion = true → q.IsLevel) (hr : r.isRegion = true)
    (hs : s.isRegion = false) : ∃ s' later,
      x.rows (d.removeRegions x) = pre.filter (!·.isRegion) ++ s' :: later ∧
        s'.line = s.line ∧ s'.before = r.before ∧ s.before = r.after := by
  obtain ⟨k', hpost, hrows⟩ := rows_removeRegions h hp
  rw [List.map_cons, List.map_cons, Lexicon.rowsFrom, Lexicon.rowsFrom] at hpost
  obtain ⟨hfirst, hrest⟩ := List.cons.inj hpost
  obtain ⟨hsecond, -⟩ := List.cons.inj hrest
  rw [List.filter_cons_of_neg (by simp [hr]), List.filter_cons_of_pos (by simp [hs]), List.map_cons,
    Lexicon.rowsFrom] at hrows
  have hbefore : k' = r.before := congrArg Row.before hfirst
  refine ⟨_, _, hrows, rfl, hbefore, ?_⟩
  rw [← congrArg Row.before hsecond]
  exact congrArg Row.after hfirst

/-- The removal of region markers takes marker lines that begin outside literals. The lines that stay
are read as before, and no literal that spans lines loses any text, up to the first marker line that
opens or closes something: the line below that one, if it stays, begins with something else. -/
theorem removeRegions_carries (d : Document) :
    let x := Lexicon.cSharp
    let e := d.removeRegions x
    e.lines = ((x.rows d).filter (!·.isRegion)).map Row.line ∧
      (∀ pre post, x.rows d = pre ++ post → (∀ r ∈ pre, r.isRegion = true → r.IsLevel) →
        (∃ later, x.rows e = pre.filter (!·.isRegion) ++ later ∧
          later.map Row.line = (post.filter (!·.isRegion)).map Row.line) ∧
        ∀ r ∈ pre, r.isRegion = true → r.before.inLiteral = false ∧ r.after.inLiteral = false) ∧
      ∀ pre r s post, x.rows d = pre ++ r :: s :: post →
        (∀ q ∈ pre, q.isRegion = true → q.IsLevel) → r.isRegion = true → ¬ r.IsLevel →
          s.isRegion = false → ∃ s' later, x.rows e = pre.filter (!·.isRegion) ++ s' :: later ∧
            s'.line = s.line ∧ s'.before ≠ s.before := by
  refine ⟨congrArg lines (removeRegions_eq _ d), fun pre post h hp => ⟨?_, fun r hr hgoes => ?_⟩,
    fun pre r s post h hp hr hlevel hs => ?_⟩
  · obtain ⟨k', -, hrows⟩ := rows_removeRegions h hp
    exact ⟨_, hrows, Lexicon.rowsFrom_map_line ..⟩
  · have hlevel := hp r hr hgoes
    have hafter := hlevel.after_of_isRegion hgoes
    exact ⟨hlevel ▸ hafter, hafter⟩
  · obtain ⟨s', later, hrows, hline, hbefore, hlinked⟩ := rows_removeRegions_cons h hp hr hs
    refine ⟨s', later, hrows, hline, fun he => hlevel ?_⟩
    rw [Row.IsLevel, ← hlinked, ← he, hbefore]

/-- A marker line that is level, and one behind which a verbatim string goes on. -/
theorem removeRegions_carries_to_verbatim :
    let x := Lexicon.cSharp
    let d := parse "#region a\nx();\n#region @\"b\n// c\n\";\n".toList
    (∃ later, x.rows (d.removeRegions x) = ((x.rows d).take 2).filter (!·.isRegion) ++ later ∧
      later.map Row.line = (((x.rows d).drop 2).filter (!·.isRegion)).map Row.line) ∧
    ∃ s' later, x.rows (d.removeRegions x) = ((x.rows d).take 2).filter (!·.isRegion) ++ s' :: later ∧
      s'.line = ⟨"// c".toList, false⟩ ∧
        s'.before ≠ .literal (.spanning ['@', '\"'] ['\"'] .doubled) := by
  intro x d
  have hp : ∀ r ∈ (x.rows d).take 2, r.isRegion = true → r.IsLevel := by decide +kernel
  have hcut := List.take_append_drop 2 (x.rows d)
  refine ⟨((removeRegions_carries d).2.1 _ _ hcut.symm hp).1, ?_⟩
  obtain ⟨r, s, post, hpost, hr, hlevel, hs, hline, hbefore⟩ : ∃ r s post,
      (x.rows d).drop 2 = r :: s :: post ∧ r.isRegion = true ∧ ¬ r.IsLevel ∧ s.isRegion = false ∧
        s.line = ⟨"// c".toList, false⟩ ∧
        s.before = .literal (.spanning ['@', '\"'] ['\"'] .doubled) :=
    ⟨_, _, _, rfl, by decide +kernel, by decide +kernel, by decide +kernel, by decide +kernel,
      by decide +kernel⟩
  rw [hpost] at hcut
  rw [← hline, ← hbefore]
  exact (removeRegions_carries d).2.2 _ r s post hcut.symm hp hr hlevel hs

/-- Where a verbatim string goes on behind a marker line, the string goes with the line, and what
follows is read as code. -/
theorem removeRegions_opens_string :
    let x := Lexicon.cSharp
    let d := parse "#region @\"a\n// b\n\";\n".toList
    (d.removeRegions x).lines = d.lines.drop 1 ∧ (x.rows d).head?.any (·.after.inLiteral) = true ∧
      (x.rows (d.removeRegions x)).map Row.before ≠ ((x.rows d).drop 1).map Row.before := by
  decide +kernel

end Document

end CleanCopy
