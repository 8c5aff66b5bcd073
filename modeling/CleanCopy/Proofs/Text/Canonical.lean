import CleanCopy.Proofs.Text.Lines

namespace CleanCopy.Document

/-- A document as texts are read into: its lines are told apart by their ends, one that has a last
line feed has a line before it, and no empty line stands where a text would simply end. -/
structure Canonical (d : Document) : Prop where
  whole : ∀ l ∈ d.lines, l.Whole
  lines_ne_nil : d.closed = true → d.lines ≠ []
  getLast?_ne : d.closed = false → d.lines.getLast? ≠ some ⟨[], false⟩

theorem lines_parse_ne_nil {t : Text} (h : (parse t).closed = true) : (parse t).lines ≠ [] := by
  rw [parse] at h ⊢
  split at h
  · cases h
  · rename_i hne
    rw [if_neg hne, Text.splitOn_eq_splitOn]
    split <;> simp

theorem parse_canonical (t : Text) : (parse t).Canonical where
  whole := parse_whole t
  lines_ne_nil := lines_parse_ne_nil
  getLast?_ne := getLast?_parse

theorem Canonical.parse_render {d : Document} (h : d.Canonical) : parse d.render = d := by
  obtain ⟨ls, closed⟩ := d
  obtain ⟨hw, hne, hlast⟩ := h
  cases closed with
  | true => rw [render_closed (hne rfl), parse_append_feed hw (hne rfl)]
  | false =>
    by_cases hnil : ls = []
    · rw [hnil]
      rfl
    · rw [render_open, parse_renderLines hw hnil (hlast rfl)]

/-- Reading and writing undo each other: every text is written as it was read, and a document is
read as it was written just if some text is read into it. -/
theorem parse_render_inverse :
    (∀ t, (parse t).render = t) ∧ ∀ d, parse d.render = d ↔ d.Canonical :=
  ⟨render_parse, fun d => ⟨fun h => h ▸ parse_canonical d.render, Canonical.parse_render⟩⟩

end CleanCopy.Document
