import CleanCopy.Proofs.Lex.Token

namespace CleanCopy

namespace Lexicon

/-- A comment or a literal would begin here, if no backslash escaped it. -/
def Marks (x : Lexicon) (t : Text) : Prop :=
  (∃ m ∈ x.lineComment, m <+: t) ∨
  (∃ m ∈ x.docLineComment, ∃ r, t = m ++ r ∧ r.head? ≠ some '/' ∧ r.head? ≠ some '*') ∨
  (∃ b ∈ x.blockComment, b.1 <+: t) ∨
  ∃ d ∈ x.literals, d.opener <+: t

variable {x : Lexicon} {t : Text}

theorem isDocMarker_iff {m : Text} : isDocMarker m t = true ↔
    ∃ r, t = m ++ r ∧ r.head? ≠ some '/' ∧ r.head? ≠ some '*' := by
  simp only [← Text.after?_eq_some_iff, isDocMarker]
  cases Text.after? m t with
  | none => simp
  | some r => simp

theorem lineToken?_eq_none_iff : x.lineToken? t = none ↔
    ¬ (∃ m ∈ x.lineComment, m <+: t) ∧
      ¬ ∃ m ∈ x.docLineComment, ∃ r, t = m ++ r ∧ r.head? ≠ some '/' ∧ r.head? ≠ some '*' := by
  simp only [← Text.startsWith_iff, ← isDocMarker_iff, lineToken?]
  cases x.docLineComment with
  | none => cases x.lineComment <;> simp
  | some d =>
    cases x.lineComment with
    | none => simp
    | some m =>
      by_cases hd : isDocMarker d t = true <;> by_cases hm : t.startsWith m = true <;> simp [hd, hm]

theorem blockToken?_eq_none_iff :
    x.blockToken? t = none ↔ ¬ ∃ b ∈ x.blockComment, b.1 <+: t := by
  simp only [← Text.startsWith_iff, blockToken?]
  cases x.blockComment with
  | none => simp
  | some b => cases t.startsWith b.1 <;> simp

theorem literal?_eq_none_iff :
    x.literals.find? (t.startsWith ·.opener) = none ↔ ¬ ∃ d ∈ x.literals, d.opener <+: t := by
  simp only [← Text.startsWith_iff, List.find?_eq_none, not_exists, not_and]

theorem token?_eq_none_iff_parts : x.token? t = none ↔ x.lineToken? t = none ∧
    x.blockToken? t = none ∧ x.literals.find? (t.startsWith ·.opener) = none := by
  rw [token?]
  cases x.lineToken? t <;> cases x.blockToken? t <;> simp

theorem token?_eq_none_iff : x.token? t = none ↔ ¬ x.Marks t := by
  rw [token?_eq_none_iff_parts, lineToken?_eq_none_iff, blockToken?_eq_none_iff,
    literal?_eq_none_iff, Marks]
  simp only [not_or, and_assoc]

/-- The parts of a token that is a literal: no comment begins here. -/
theorem token?_eq_literal_iff {d : Delimiter} : x.token? t = some (.literal d) ↔
    x.lineToken? t = none ∧ x.blockToken? t = none ∧
      x.literals.find? (t.startsWith ·.opener) = some d := by
  rw [token?]
  cases hl : x.lineToken? t with
  | some tok =>
    obtain ⟨⟨cls, rfl⟩, -⟩ := lineToken?_eq_some hl
    simp
  | none =>
    cases hb : x.blockToken? t with
    | some tok =>
      obtain ⟨cls, opener, closer, rfl, -⟩ := blockToken?_eq_some hb
      simp
    | none => simp

theorem token?_eq_block_iff {cls : CommentClass} {opener : Text} :
    x.token? t = some (.blockComment cls opener) ↔
      x.lineToken? t = none ∧ x.blockToken? t = some (.blockComment cls opener) := by
  rw [token?]
  cases hl : x.lineToken? t with
  | some tok =>
    obtain ⟨⟨cls, rfl⟩, -⟩ := lineToken?_eq_some hl
    simp
  | none => cases hb : x.blockToken? t <;> simp

end Lexicon

end CleanCopy
