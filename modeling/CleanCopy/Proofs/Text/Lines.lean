import CleanCopy.Proofs.Text.Lists
import CleanCopy.Text.Document

namespace CleanCopy

theorem Text.splitOn_eq_splitOn (sep : Char) (t : Text) : Text.splitOn sep t = List.splitOn sep t := by
  induction t with
  | nil => rfl
  | cons c cs ih =>
    rw [Text.splitOn, List.splitOn_cons_eq_if_modifyHead, ih]
    simp only [beq_iff_eq]
    split
    · rfl
    · cases h : List.splitOn sep cs with
      | nil => exact absurd h (List.splitOn_ne_nil sep cs)
      | cons piece pieces => rfl

namespace Line

/-- A line that is read back as it was written: it holds no line feed, and a carriage return at its
end is told apart from its text. -/
structure Whole (l : Line) : Prop where
  no_feed : '\n' ∉ l.text
  no_return : l.cr = false → l.text.getLast? ≠ some '\r'

theorem render_parse (raw : Text) : (Line.parse raw).render = raw := by
  by_cases h : raw.getLast? = some '\r'
  · rw [Line.parse, if_pos h]
    exact List.dropLast_append_getLast? '\r' h
  · rw [Line.parse, if_neg h]
    rfl

theorem parse_render {l : Line} (h : l.Whole) : Line.parse l.render = l := by
  obtain ⟨t, cr⟩ := l
  cases cr with
  | true => simp [Line.parse, Line.render]
  | false => simp [Line.parse, Line.render, h.no_return rfl]

theorem parse_whole {raw : Text} (h : '\n' ∉ raw) : (Line.parse raw).Whole := by
  rw [Line.parse]
  split
  · exact ⟨fun hm => h (List.mem_of_mem_dropLast hm), fun h => by cases h⟩
  · rename_i hr
    exact ⟨h, fun _ => hr⟩

theorem feed_notMem_render {l : Line} (h : l.Whole) : '\n' ∉ l.render := by
  rw [Line.render]
  split
  · simp [h.no_feed]
  · exact h.no_feed

end Line

namespace Document

theorem renderLines_concat {ls : List Line} (h : ls ≠ []) (l : Line) :
    renderLines (ls ++ [l]) = renderLines ls ++ '\n' :: l.render := by
  induction ls with
  | nil => exact absurd rfl h
  | cons a as ih =>
    cases as with
    | nil => rfl
    | cons b bs =>
      have := ih (List.cons_ne_nil _ _)
      simp only [List.cons_append, renderLines] at this ⊢
      rw [this, List.append_assoc, List.cons_append]

theorem render_singleton (l : Line) (closed : Bool) :
    render ⟨[l], closed⟩ = l.render ++ if closed then ['\n'] else [] := by
  cases closed with
  | true => rfl
  | false => exact (List.append_nil _).symm

theorem render_cons_cons (l m : Line) (ls : List Line) (closed : Bool) :
    render ⟨l :: m :: ls, closed⟩ = l.render ++ '\n' :: render ⟨m :: ls, closed⟩ := by
  cases closed with
  | true => exact List.append_assoc l.render ('\n' :: renderLines (m :: ls)) ['\n']
  | false => rfl

theorem renderLines_eq_intercalate (ls : List Line) :
    renderLines ls = ['\n'].intercalate (ls.map Line.render) := by
  induction ls with
  | nil => rfl
  | cons a as ih =>
    cases as with
    | nil => simp [renderLines]
    | cons b bs =>
      change a.render ++ '\n' :: renderLines (b :: bs) = _
      rw [ih]
      simp

theorem renderLines_map_parse (t : Text) :
    renderLines ((List.splitOn '\n' t).map Line.parse) = t := by
  have hmap : ((List.splitOn '\n' t).map Line.parse).map Line.render = List.splitOn '\n' t := by
    rw [List.map_map]
    exact List.map_id'' Line.render_parse _
  rw [renderLines_eq_intercalate, hmap, List.intercalate_splitOn]

/-- A text that is read and written again stays the same. -/
theorem render_parse (t : Text) : (parse t).render = t := by
  rw [parse]
  split
  · rename_i h
    rw [List.isEmpty_iff.mp h]
    rfl
  · split
    · rename_i h
      have hne : (List.splitOn '\n' t.dropLast).map Line.parse ≠ [] := by simp
      rw [render, List.isEmpty_eq_false_iff.mpr hne]
      simp only [Bool.not_false, Bool.and_true, if_true, renderLines_map_parse]
      exact List.dropLast_append_getLast? '\n' h
    · rw [Text.splitOn_eq_splitOn]
      exact renderLines_map_parse t

theorem parse_whole (t : Text) : ∀ l ∈ (parse t).lines, l.Whole := by
  intro l hl
  rw [parse, Text.splitOn_eq_splitOn] at hl
  split at hl
  · exact absurd hl List.not_mem_nil
  · split at hl
    all_goals
      obtain ⟨raw, hr, rfl⟩ := List.mem_map.mp hl
      exact Line.parse_whole (List.notMem_of_mem_splitOn hr)

theorem map_parse_splitOn_renderLines {ls : List Line} (hw : ∀ l ∈ ls, l.Whole) (h : ls ≠ []) :
    (List.splitOn '\n' (renderLines ls)).map Line.parse = ls := by
  have hfeed : ∀ raw ∈ ls.map Line.render, '\n' ∉ raw := by
    intro raw hr
    obtain ⟨l, hl, rfl⟩ := List.mem_map.mp hr
    exact Line.feed_notMem_render (hw l hl)
  rw [renderLines_eq_intercalate, List.splitOn_intercalate _ hfeed (by simpa using h), List.map_map]
  calc
    _ = ls.map id := List.map_congr_left fun l hl => Line.parse_render (hw l hl)
    _ = ls := List.map_id ls

theorem parse_append_feed {ls : List Line} (hw : ∀ l ∈ ls, l.Whole) (h : ls ≠ []) :
    parse (renderLines ls ++ ['\n']) = ⟨ls, true⟩ := by
  simp [parse, map_parse_splitOn_renderLines hw h]

theorem getLast?_renderLines (init : List Line) {l : Line} (h : l.render ≠ []) :
    (renderLines (init ++ [l])).getLast? = l.render.getLast? := by
  rcases List.eq_nil_or_concat' init with rfl | ⟨front, k, rfl⟩
  · rfl
  · rw [renderLines_concat (by simp), List.getLast?_append_of_ne_nil _ (List.cons_ne_nil _ _)]
    cases hl : l.render with
    | nil => exact absurd hl h
    | cons c cs => rw [List.getLast?_cons_cons]

/-- Lines of which the last one is not empty are read back without a line feed behind them. -/
theorem parse_renderLines {ls : List Line} (hw : ∀ l ∈ ls, l.Whole) (h : ls ≠ [])
    (hlast : ls.getLast? ≠ some ⟨[], false⟩) : parse (renderLines ls) = ⟨ls, false⟩ := by
  obtain ⟨init, l, rfl⟩ := List.eq_nil_or_concat' ls |>.resolve_left h
  have hl : l.Whole := hw l (by simp)
  have hne : l.render ≠ [] := by
    intro he
    have hl' : l = ⟨[], false⟩ := by
      rw [← Line.parse_render hl, he]
      rfl
    exact hlast (hl' ▸ List.getLast?_concat)
  have hend := getLast?_renderLines init hne
  have hemp : renderLines (init ++ [l]) ≠ [] := by
    intro he
    rw [he, List.getLast?_nil] at hend
    exact hne (List.getLast?_eq_none_iff.mp hend.symm)
  have hfeed : (renderLines (init ++ [l])).getLast? ≠ some '\n' := by
    rw [hend]
    exact fun hf => Line.feed_notMem_render hl (List.mem_of_getLast? hf)
  rw [parse, if_neg (by simpa using hemp), if_neg hfeed, Text.splitOn_eq_splitOn,
    map_parse_splitOn_renderLines hw h]

theorem render_open (ls : List Line) : render ⟨ls, false⟩ = renderLines ls := rfl

theorem render_closed {ls : List Line} (h : ls ≠ []) : render ⟨ls, true⟩ = renderLines ls ++ ['\n'] := by
  simp [render, h]

/-- What is written is read back, except that an empty line at the very end is taken for the line
feed before it. -/
theorem parse_render {d : Document} (hw : ∀ l ∈ d.lines, l.Whole) :
    (parse d.render).lines = d.lines ∨
      d.closed = false ∧ d.lines = (parse d.render).lines ++ [⟨[], false⟩] := by
  obtain ⟨ls, closed⟩ := d
  by_cases h : ls = []
  · subst h
    left
    cases closed <;> rfl
  cases closed with
  | true =>
    left
    rw [render_closed h, parse_append_feed hw h]
  | false =>
    rw [render_open]
    by_cases hlast : ls.getLast? = some ⟨[], false⟩
    · obtain ⟨init, rfl⟩ := List.getLast?_eq_some_iff.mp hlast
      have hinit : ∀ k ∈ init, k.Whole := fun k hk => hw k (List.mem_append_left _ hk)
      right
      refine ⟨rfl, ?_⟩
      have hread : (parse (renderLines (init ++ [⟨[], false⟩]))).lines = init := by
        by_cases hnil : init = []
        · rw [hnil]
          rfl
        · rw [renderLines_concat hnil]
          exact congrArg Document.lines (parse_append_feed hinit hnil)
      rw [hread]
    · left
      rw [parse_renderLines hw h hlast]

/-- A text that does not end in a line feed does not end in an empty line. -/
theorem getLast?_parse {t : Text} (h : (parse t).closed = false) :
    (parse t).lines.getLast? ≠ some ⟨[], false⟩ := by
  intro hl
  have ht : renderLines (parse t).lines = t := by
    have := render_parse t
    rwa [render, h, Bool.false_and, if_neg Bool.false_ne_true] at this
  obtain ⟨front, hf⟩ := List.getLast?_eq_some_iff.mp hl
  rw [hf] at ht
  rcases List.eq_nil_or_concat' front with rfl | ⟨init, k, rfl⟩
  · obtain rfl : [] = t := ht
    simp [parse] at hl
  · rw [renderLines_concat (by simp)] at ht
    have hfeed : t.getLast? = some '\n' := by
      rw [← ht]
      simp [Line.render]
    have hne : t.isEmpty = false := by
      cases t with
      | nil => simp at hfeed
      | cons => rfl
    rw [parse, hne, if_neg Bool.false_ne_true, if_pos hfeed] at h
    exact absurd h (by simp)

end Document

end CleanCopy
