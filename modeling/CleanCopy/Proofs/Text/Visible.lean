import CleanCopy.Proofs.Text.Gaps
import CleanCopy.Proofs.Text.Lines

namespace CleanCopy

namespace Text

theorem visible_of_isBlank {t : Text} (h : t.isBlank = true) : t.visible = [] :=
  visible_eq_nil_iff.mpr h

theorem visible_flatMap {α : Type} (f : α → Text) (as : List α) :
    Text.visible (as.flatMap f) = as.flatMap fun a => (f a).visible := by
  induction as with
  | nil => rfl
  | cons a as ih => rw [List.flatMap_cons, visible_append, ih, List.flatMap_cons]

theorem visible_dropWhile {p : Char → Bool} (hp : ∀ c, p c = true → CleanCopy.isBlank c = true)
    (t : Text) : Text.visible (t.dropWhile p) = t.visible := by
  induction t with
  | nil => rfl
  | cons c cs ih =>
    rw [List.dropWhile_cons]
    split
    · rename_i hc
      rw [visible_cons_of_blank (hp c hc), ih]
    · rfl

theorem visible_trim (t : Text) : t.trim.visible = t.visible := by
  rw [trim, visible_trimEnd]
  exact visible_dropWhile (fun _ => id) t

theorem visible_spaceOutFrom (inRun : Bool) (t : Text) :
    (spaceOutFrom inRun t).visible = t.visible := by
  induction t generalizing inRun with
  | nil => rfl
  | cons c cs ih =>
    rw [spaceOutFrom]
    by_cases hc : isGap c = true
    · rw [if_pos hc, visible_cons_of_blank (isBlank_of_isGap hc)]
      cases inRun with
      | true => exact ih true
      | false => exact (visible_cons_of_blank (by decide) _).trans (ih true)
    · rw [if_neg hc]
      exact visible_cons_congr (ih false) c

theorem visible_closeUpFrom (first second : Char) (touching : Bool) (t : Text) :
    (closeUpFrom first second touching t).visible = t.visible := by
  induction t generalizing touching with
  | nil => rfl
  | cons c cs ih =>
    rw [closeUpFrom]
    split
    · rename_i hc
      split
      · rw [visible_cons_of_blank (isBlank_of_isGap (Bool.and_eq_true_iff.mp hc).1), ih]
      · exact visible_cons_congr (ih false) c
    · exact visible_cons_congr (ih _) c

end Text

theorem Line.visible_render (l : Line) : l.render.visible = l.text.visible := by
  rw [render]
  split
  · rw [Text.visible_append, Text.visible_of_isBlank (t := ['\r']) (by decide), List.append_nil]
  · rfl

namespace Document

/-- What is visible in the lines of a document. -/
def visible (d : Document) : Text := d.lines.flatMap fun l => l.text.visible

theorem visible_renderLines (ls : List Line) :
    (renderLines ls).visible = ls.flatMap fun l => l.text.visible := by
  induction ls with
  | nil => rfl
  | cons l ls ih =>
    cases ls with
    | nil => rw [renderLines, Line.visible_render, List.flatMap_singleton]
    | cons m ms =>
      have hfeed := Text.visible_cons_of_blank (c := '\n') (by decide) (renderLines (m :: ms))
      change Text.visible (l.render ++ '\n' :: renderLines (m :: ms)) = _
      rw [Text.visible_append, hfeed, ih, Line.visible_render]
      rfl

theorem visible_render (d : Document) : d.render.visible = d.visible := by
  rw [render]
  split
  · rw [Text.visible_append, visible_renderLines]
    exact List.append_nil _
  · exact visible_renderLines _

theorem visible_parse (t : Text) : (parse t).visible = t.visible := by
  rw [← visible_render, render_parse]

end Document

end CleanCopy
