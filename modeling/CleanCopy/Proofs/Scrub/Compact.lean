import CleanCopy.Proofs.Scrub.Respaced

namespace CleanCopy

/-- A row as compaction leaves it: no blanks at its end, unless it ends in a literal, and few gaps in
its code, the indentation apart if that is kept. -/
structure Row.Compacted (keepIndent : Bool) (r : Row) : Prop where
  ended : r.after.inLiteral = false → r.line.text.trimEnd = r.line.text
  tidy : Piece.Tidy keepIndent (r.before = .code) r.pieces

namespace Document

variable {x : Lexicon} {keepIndent : Bool} {d : Document}

theorem compact_eq_self_iff (hx : x.Steady) :
    d.compact x keepIndent = d ↔ ∀ r ∈ x.rows d, r.Compacted keepIndent := by
  rw [← Pass.apply_compact hx, Pass.apply_eq_self_iff _ hx.regular]
  refine forall₂_congr fun r hr => ?_
  rw [Pass.fixes_compact_iff hx (x.rows_read hx.regular.filled d r hr)]
  exact ⟨fun ⟨hended, htidy⟩ => ⟨hended, htidy⟩, fun h => ⟨h.ended, h.tidy⟩⟩

end Document

/-- Compaction of a compacted document changes nothing, and the documents that it leaves alone are
those whose rows are all compacted. -/
theorem Kind.compact_compact (k : Kind) (keepIndent : Bool) (d : Document) :
    let x := k.lexicon
    (d.compact x keepIndent).compact x keepIndent = d.compact x keepIndent ∧
      (d.compact x keepIndent = d ↔ ∀ r ∈ x.rows d, r.Compacted keepIndent) := by
  intro x
  have hx : x.Steady := k.lexicon_steady
  refine ⟨?_, Document.compact_eq_self_iff hx⟩
  rw [← Pass.apply_compact hx, ← Pass.apply_compact hx]
  exact (Pass.compact_idempotent hx keepIndent).apply_apply hx.regular d

end CleanCopy
