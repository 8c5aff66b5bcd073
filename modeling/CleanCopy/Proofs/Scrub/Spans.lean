import CleanCopy.Proofs.Text.Offset
import CleanCopy.Proofs.Text.Visible
import CleanCopy.Scrub.Spans

namespace CleanCopy

def Span.covers (s : Span) (offset : Nat) : Bool := s.start ≤ offset && offset < s.stop

/-- The characters that no span covers, for a text that begins at a byte offset. -/
def Text.outside (spans : List Span) (offset : Nat) : Text → Text
  | [] => []
  | c :: cs =>
    if spans.any (·.covers offset) then outside spans (offset + c.utf8Size) cs
    else c :: outside spans (offset + c.utf8Size) cs

/-- A line that begins at a byte offset, without what the spans cover. -/
def Line.outside (spans : List Span) (offset : Nat) (l : Line) : Option Line :=
  if spans.any (·.touches offset l.text.byteSize) then
    let kept := l.text.outside spans offset
    if kept.isBlank then none else some (l.withText kept.trimEnd)
  else some l

def Line.outsideAll (spans : List Span) (offset : Nat) : List Line → List Line
  | [] => []
  | l :: ls => (l.outside spans offset).toList ++ outsideAll spans (offset + l.byteSize) ls

def Document.outside (spans : List Span) (d : Document) : Document :=
  d.withLines (Line.outsideAll spans 0 d.lines)

namespace Text

variable {spans : List Span} {offset : Nat} {t : Text}

theorem outside_append (spans : List Span) (offset : Nat) (s t : Text) :
    outside spans offset (s ++ t) = outside spans offset s ++ outside spans (offset + s.byteSize) t := by
  induction s generalizing offset with
  | nil => rfl
  | cons c cs ih =>
    rw [List.cons_append, outside, outside, ih, byteSize, Nat.add_assoc]
    split
    · rfl
    · rfl

theorem outside_sublist (spans : List Span) (offset : Nat) (t : Text) :
    (outside spans offset t).Sublist t := by
  induction t generalizing offset with
  | nil => exact .slnil
  | cons c cs ih =>
    rw [outside]
    split
    · exact (ih _).cons c
    · exact (ih _).cons_cons c

theorem visible_outside_of_isBlank (h : t.isBlank = true) :
    (outside spans offset t).visible = [] :=
  visible_of_isBlank <| isBlank_iff.mpr fun c hc =>
    isBlank_iff.mp h c ((outside_sublist spans offset t).subset hc)

/-- Spans that end before the text or begin after it leave it alone. -/
theorem outside_of_apart (h : ∀ s ∈ spans, s.stop ≤ offset ∨ offset + t.byteSize ≤ s.start) :
    outside spans offset t = t := by
  induction t generalizing offset with
  | nil => rfl
  | cons c cs ih =>
    have hc := c.utf8Size_pos
    rw [byteSize] at h
    have hnone : spans.any (·.covers offset) = false := by
      simp only [List.any_eq_false, Span.covers, Bool.and_eq_true, decide_eq_true_eq]
      intro s hs
      have := h s hs
      omega
    rw [outside, hnone, if_neg Bool.false_ne_true, ih]
    intro s hs
    have := h s hs
    omega

/-- Of spans it matters only what they cover, and of that only what they cover of the text. -/
theorem outside_congr {spans' : List Span} {offset' : Nat} (h : ∀ n < t.byteSize,
      spans.any (·.covers (offset + n)) = spans'.any (·.covers (offset' + n))) :
    outside spans offset t = outside spans' offset' t := by
  induction t generalizing offset offset' with
  | nil => rfl
  | cons c cs ih =>
    have hc := c.utf8Size_pos
    rw [byteSize] at h
    have hfirst : spans.any (·.covers offset) = spans'.any (·.covers offset') :=
      h 0 (by omega)
    have hrest : outside spans (offset + c.utf8Size) cs = outside spans' (offset' + c.utf8Size) cs := by
      refine ih fun n hn => ?_
      rw [Nat.add_assoc, Nat.add_assoc]
      exact h _ (by omega)
    rw [outside, outside, hfirst, hrest]

theorem outside_of_mem {s : Span} (hs : s ∈ spans) (hstart : s.start ≤ offset)
    (hstop : offset + t.byteSize ≤ s.stop) : outside spans offset t = [] := by
  induction t generalizing offset with
  | nil => rfl
  | cons c cs ih =>
    have hc := c.utf8Size_pos
    rw [byteSize] at hstop
    have hany : spans.any (·.covers offset) = true := by
      simp only [List.any_eq_true, Span.covers, Bool.and_eq_true, decide_eq_true_eq]
      exact ⟨s, hs, hstart, by omega⟩
    rw [outside, hany, if_pos rfl]
    exact ih (by omega) (by omega)

theorem outside_cons_of_le {s : Span} (h : s.stop ≤ offset) :
    outside (s :: spans) offset t = outside spans offset t := by
  induction t generalizing offset with
  | nil => rfl
  | cons c cs ih =>
    have hs : s.covers offset = false := by
      simp only [Span.covers, Bool.and_eq_false_iff, decide_eq_false_iff_not]
      exact .inr (by omega)
    rw [outside, outside, List.any_cons, hs, Bool.false_or, ih (by omega)]

theorem outside_append_of_le {u : Text} (h : ∀ s ∈ spans, offset + u.byteSize ≤ s.start) (v : Text) :
    outside spans offset (u ++ v) = u ++ outside spans (offset + u.byteSize) v := by
  rw [outside_append, outside_of_apart fun s hs => .inr (h s hs)]

/-- The first span cuts out what it covers. -/
theorem outside_cut {start stop : Nat} {u v : Text} (hstart : start = offset + u.byteSize)
    (hstop : stop = start + v.byteSize) (h : ∀ s ∈ spans, stop ≤ s.start) (w : Text) :
    outside (⟨start, stop⟩ :: spans) offset (u ++ (v ++ w)) = u ++ outside spans stop w := by
  have hu : outside (⟨start, stop⟩ :: spans) offset u = u := by
    refine outside_of_apart fun s hs => .inr ?_
    rcases List.mem_cons.mp hs with rfl | hs
    · exact hstart.ge
    · have := h s hs
      omega
  have hv : outside (⟨start, stop⟩ :: spans) start v = [] :=
    outside_of_mem List.mem_cons_self (Nat.le_refl _) hstop.ge
  rw [outside_append, hu, ← hstart, outside_append, hv, ← hstop, outside_cons_of_le (Nat.le_refl _)]
  rfl

end Text

namespace Line

variable (spans : List Span) (offset : Nat)

theorem visible_outside (l : Line) :
    ((l.outside spans offset).toList.flatMap fun l => l.text.visible) =
      (l.text.outside spans offset).visible := by
  rw [outside]
  split
  · by_cases hb : (l.text.outside spans offset).isBlank = true
    · rw [if_pos hb, Text.visible_of_isBlank hb]
      rfl
    · rw [if_neg hb]
      exact (List.append_nil _).trans (Text.visible_trimEnd _)
  · rename_i htouch
    rw [Text.outside_of_apart fun s hs => ?_]
    · exact List.append_nil _
    · have hs : ¬ s.touches offset l.text.byteSize = true := fun h =>
        htouch (List.any_eq_true.mpr ⟨s, hs, h⟩)
      simp only [Span.touches, Bool.and_eq_true, decide_eq_true_eq] at hs
      omega

theorem byteSize_render (l : Line) : l.render.byteSize + 1 = l.byteSize := by
  rw [render, byteSize]
  cases l.cr with
  | true => exact congrArg (· + 1) (Text.byteSize_append ..)
  | false => rfl

theorem visible_outside_render (l : Line) :
    (l.render.outside spans offset).visible = (l.text.outside spans offset).visible := by
  rw [render]
  split
  · rw [Text.outside_append, Text.visible_append,
      Text.visible_outside_of_isBlank (t := ['\r']) rfl, List.append_nil]
  · rfl

/-- Lines lose what is visible in the spans of the text that they make up. -/
theorem visible_outsideAll (ls : List Line) :
    ((outsideAll spans offset ls).flatMap fun l => l.text.visible) =
      ((Document.renderLines ls).outside spans offset).visible := by
  induction ls generalizing offset with
  | nil => rfl
  | cons l ls ih =>
    rw [outsideAll, List.flatMap_append, visible_outside, ih, ← visible_outside_render]
    cases ls with
    | nil => exact List.append_nil _
    | cons m ms =>
      change _ = Text.visible (Text.outside spans offset
        (l.render ++ (['\n'] ++ Document.renderLines (m :: ms))))
      rw [Text.outside_append, Text.outside_append, Text.visible_append, Text.visible_append,
        Text.visible_outside_of_isBlank (t := ['\n']) rfl, List.nil_append, ← byteSize_render]
      rfl

theorem outsideAll_cons_of_le {spans : List Span} {offset : Nat} {s : Span} {ls : List Line}
    (h : s.stop ≤ offset) :
    outsideAll (s :: spans) offset ls = outsideAll spans offset ls := by
  induction ls generalizing offset with
  | nil => rfl
  | cons l ls ih =>
    have htouch : s.touches offset l.text.byteSize = false := by
      simp only [Span.touches, Bool.and_eq_false_iff, decide_eq_false_iff_not]
      exact .inr (by omega)
    rw [outsideAll, outsideAll, outside, outside, List.any_cons, htouch, Bool.false_or,
      Text.outside_cons_of_le h, ih (by omega)]

theorem outsideAll_append_of_le {pre : List Span} {offset : Nat} (h : ∀ s ∈ pre, s.stop ≤ offset)
    (spans : List Span) (ls : List Line) :
    outsideAll (pre ++ spans) offset ls = outsideAll spans offset ls := by
  induction pre with
  | nil => rfl
  | cons s pre ih =>
    obtain ⟨hs, hpre⟩ := List.forall_mem_cons.mp h
    rw [List.cons_append, outsideAll_cons_of_le hs, ih hpre]

end Line

theorem Document.visible_outside (spans : List Span) (d : Document) :
    (d.outside spans).visible = (d.render.outside spans 0).visible := by
  rw [visible, outside, withLines, Line.visible_outsideAll, render]
  split
  · rw [Text.outside_append, Text.visible_append, Text.visible_outside_of_isBlank (t := ['\n']) rfl,
      List.append_nil]
  · rfl

end CleanCopy
