import CleanCopy.Proofs.Scrub.Durable
import CleanCopy.Proofs.Text.Returns

namespace CleanCopy

theorem Line.clear_durable : Durable Clear where
  spelled hx hr hq h hc := h ((hr.mem_spelled hq hc).resolve_right (by decide))
  written hmem _ h hc := h ((hmem _ hc (by decide)).resolve_right (by decide))

namespace Kind

/-- Where every carriage return of a text stands before a line feed, scrubbing leaves every one
there, but perhaps one at the very end; and that one too, if the text ends in a line feed. -/
theorem scrub_returns (k : Kind) (o : ScrubOptions) {t : Text} (h : t.Paired) :
    (k.scrub o t).Loose ∧ (t.getLast? = some '\n' → (k.scrub o t).Paired) := by
  obtain ⟨d, hd, hs⟩ := k.exists_keeps Line.clear_durable o t
  have hclear : d.Clear := hd.lines (Document.parse_clear (Text.paired_iff.mp h).1)
  rw [hs]
  exact ⟨hclear.loose_render, fun hf =>
    hclear.paired_render (hd.closed.trans (Document.closed_parse hf))⟩

theorem scrub_returns_comment_between :
    Text.Paired "x\r\n// c\r\ny\r\n".toList ∧
      (typeScript.scrub .minimal "x\r\n// c\r\ny\r\n".toList).Paired :=
  have h : Text.Paired "x\r\n// c\r\ny\r\n".toList := by decide
  ⟨h, (scrub_returns typeScript .minimal h).2 (by decide)⟩

/-- A comment line that closes a text without a line feed leaves the carriage return of the line
above it at the end, in every kind. -/
theorem scrub_splits_line_end :
    (∀ p ∈ [(cSharp, "x\r\n// c"), (typeScript, "x\r\n// c"), (python, "x\r\n# c"),
        (html, "x\r\n<!-- c -->"), (css, "x\r\n/* c */")],
      Text.Paired p.2.toList ∧ p.1.scrub .minimal p.2.toList = ['x', '\r']) ∧
    ¬ Text.Paired ['x', '\r'] := by
  decide +kernel

end Kind

end CleanCopy
