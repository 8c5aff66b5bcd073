import CleanCopy.Proofs.Scrub.Pipeline
import CleanCopy.Proofs.Scrub.Rewriting
import CleanCopy.Proofs.Scrub.Tidy

namespace CleanCopy

open Piece

variable {x : Lexicon} {r r' : Row}

namespace Row

theorem flatMap_eq_wording {kept : Piece → Text} (h : ∀ p, kept p = (p.withCode Text.tight).text)
    (ps : List Piece) : ps.flatMap kept = wording (ps.map (withCode Text.tight)) := by
  rw [wording, List.flatMap_map]
  exact List.flatMap_congr fun p _ => h p

theorem compact_eq (keepIndent : Bool) (r : Row) :
    r.compact keepIndent = r.spelled (squeeze keepIndent (r.before = .code) r.pieces) := by
  rw [spelled, wording_ended]
  obtain ⟨l, k, ps, k'⟩ := r
  match k, ps with
  | .code, [] => rfl
  | .code, .code t :: ps
  | .code, .literal t :: ps
  | .code, .comment cls t :: ps
  | .block cls, ps
  | .literal d, ps =>
    dsimp only [compact]
    rw [flatMap_eq_wording]
    · rfl
    · intro p
      cases p <;> rfl

theorem Read.trimmed_eq (hr : r.Read x) : r.trimmed = r.spelled r.pieces := by
  rw [trimmed, spelled, wording_ended, hr.spells]
  split <;> rfl

theorem Read.spread (hr : r.Read x) : Spread r.pieces := (hr.joined ▸ apart_merged r.pieces).1

/-- Pieces that are spelled by the row's own line are the row's own. -/
theorem rewritten_id (hx : x.Regular) (hr : r.Read x) {l : Line} (h : l = r.line) :
    r.rewritten x id l = r := by
  rw [h]
  exact rewritten_line hx hr rfl rfl

/-- Nothing but literal text ends in blanks once a row is respelled. -/
theorem trimEnd_spelled (r : Row) (qs : List Piece) (ho : r.after.inLiteral = false) :
    (r.spelled qs).text.trimEnd = (r.spelled qs).text := by
  change (wording (r.ended qs)).trimEnd = wording (r.ended qs)
  rw [wording_ended, ho]
  exact Text.trimEnd_trimEnd _

theorem isBlank_spelled (r : Row) (qs : List Piece) :
    (r.spelled qs).isBlank = (wording qs).isBlank := by
  change (wording (r.ended qs)).isBlank = _
  rw [wording_ended]
  split
  · rfl
  · rw [Bool.eq_iff_iff, ← Text.visible_eq_nil_iff, ← Text.visible_eq_nil_iff, Text.visible_trimEnd]

end Row

namespace Pass

/-- The removal of blank lines. -/
def blankLines (hx : x.Regular) : Pass x where
  row r := if r.before.inLiteral || !r.line.isBlank then some r else none
  carry := id
  carry_code := rfl
  inLiteral_carry _ := rfl
  kept {r r'} hr h := by
    split at h
    · obtain rfl := Option.some.inj h
      exact hr.rewrites_self rfl rfl
    · cases h
  dropped {r} hr h := by
    split at h
    · cases h
    · rename_i hc
      simp only [Bool.or_eq_true, Bool.not_eq_true', not_or, Bool.not_eq_true,
        Bool.not_eq_false] at hc
      have hb : (wording r.pieces).isBlank = true := by rw [hr.spells]; exact hc.2
      exact ⟨hr.begins.after_of_isBlank hx hb, hc.1,
        Row.literals_of_eq_nil (hr.begins.literals_of_isBlank hx hb hc.1),
        visibleCode_of_isBlank hb⟩

/-- The trimming of line ends. -/
def trimLines (hx : x.Steady) : Pass x where
  row r := some (r.rewritten x id r.trimmed)
  carry := id
  carry_code := rfl
  inLiteral_carry _ := rfl
  kept {r r'} hr h := by
    rw [hr.trimmed_eq] at h
    obtain rfl := Option.some.inj h
    exact hr.rewrites hx (fun _ => rfl) (.refl _) hr.begins
  dropped _ h := by cases h

/-- The compaction of code. -/
def compact (hx : x.Steady) (keepIndent : Bool) : Pass x where
  row r := some (r.rewritten x id (r.compact keepIndent))
  carry := id
  carry_code := rfl
  inLiteral_carry _ := rfl
  kept {r r'} hr h := by
    rw [r.compact_eq] at h
    obtain rfl := Option.some.inj h
    exact hr.rewrites hx (fun _ => rfl) (alters_squeeze ..) (hr.begins.squeeze hx keepIndent)
  dropped _ h := by cases h

theorem row_blankLines (hx : x.Regular) : (blankLines hx).row =
    Option.guard fun r : Row => r.before.inLiteral || !r.line.isBlank := by
  funext r
  change (if _ then _ else _) = _
  cases h : r.before.inLiteral || !r.line.isBlank <;> simp [Option.guard, h]

theorem apply_blankLines (hx : x.Regular) (d : Document) :
    (blankLines hx).apply d = d.removeBlankLines x := by
  rw [apply, Document.removeBlankLines, row_blankLines, List.filterMap_eq_filter]

theorem apply_trimLines (hx : x.Steady) (d : Document) : (trimLines hx).apply d = d.trimLines x := by
  change d.withLines (((x.rows d).filterMap (some ∘ fun r => r.rewritten x id r.trimmed)).map
    Row.line) = _
  rw [List.filterMap_eq_map, List.map_map]
  rfl

theorem apply_compact (hx : x.Steady) (keepIndent : Bool) (d : Document) :
    (compact hx keepIndent).apply d = d.compact x keepIndent := by
  change d.withLines (((x.rows d).filterMap (some ∘ fun r =>
    r.rewritten x id (r.compact keepIndent))).map Row.line) = _
  rw [List.filterMap_eq_map, List.map_map]
  rfl

theorem fixes_blankLines (hx : x.Regular) :
    (blankLines hx).Fixes r ↔ (r.before.inLiteral || !r.line.isBlank) = true := by
  change (if _ then _ else _) = _ ↔ _
  split
  · rename_i h
    exact ⟨fun _ => h, fun _ => rfl⟩
  · rename_i h
    exact ⟨fun h => (by cases h), fun h' => absurd h' h⟩

theorem blankLines_idempotent (hx : x.Regular) : (blankLines hx).Idempotent := by
  intro r r' hr h
  change (if _ then _ else _) = _ at h
  split at h
  · rename_i hc
    obtain rfl := Option.some.inj h
    exact (fixes_blankLines hx).mpr hc
  · cases h

/-- A pass that keeps the visible text of lines makes no blank ones. -/
theorem respects_blankLines (hx : x.Regular) {Q : Pass x}
    (h : ∀ {r r' : Row}, r.Read x → Q.row r = some r' →
      r'.before = r.before ∧ r'.line.isBlank = r.line.isBlank) : Q.Respects (blankLines hx) := by
  intro r r' hr hf hrow
  obtain ⟨hb, hl⟩ := h hr hrow
  rw [fixes_blankLines] at hf ⊢
  rw [hb, hl]
  exact hf

theorem trimLines_respects_blankLines (hx : x.Steady) :
    (trimLines hx).Respects (blankLines hx.regular) := by
  refine respects_blankLines hx.regular fun {r r'} hr h => ?_
  obtain rfl := Option.some.inj h
  refine ⟨rfl, ?_⟩
  change r.trimmed.isBlank = _
  rw [hr.trimmed_eq, Row.isBlank_spelled, hr.spells]
  rfl

theorem compact_respects_blankLines (hx : x.Steady) (keepIndent : Bool) :
    (compact hx keepIndent).Respects (blankLines hx.regular) := by
  refine respects_blankLines hx.regular fun {r r'} hr h => ?_
  obtain rfl := Option.some.inj h
  refine ⟨rfl, ?_⟩
  change (r.compact keepIndent).isBlank = _
  rw [r.compact_eq, Row.isBlank_spelled, Bool.eq_iff_iff, ← Text.visible_eq_nil_iff,
    visible_wording_squeeze, Text.visible_eq_nil_iff, hr.spells]
  rfl

/-- What the passes over line ends leave. -/
theorem trimEnd_of_trimLines (hx : x.Steady) (hr : r.Read x) (h : (trimLines hx).row r = some r')
    (ho : r'.after.inLiteral = false) : r'.line.text.trimEnd = r'.line.text := by
  rw [show (trimLines hx).row r = some (r.rewritten x id r.trimmed) from rfl, hr.trimmed_eq] at h
  obtain rfl := Option.some.inj h
  exact r.trimEnd_spelled _ ho

theorem fixes_trimLines_iff (hx : x.Steady) (hr : r.Read x) : (trimLines hx).Fixes r ↔
    (r.after.inLiteral = false → r.line.text.trimEnd = r.line.text) := by
  refine ⟨fun h ho => trimEnd_of_trimLines hx hr h ho, fun h => ?_⟩
  refine congrArg some (Row.rewritten_id hx.regular hr ?_)
  rw [Row.trimmed]
  split
  · rfl
  · rename_i ho
    rw [h (by simpa using ho)]
    rfl

theorem trimLines_idempotent (hx : x.Steady) : (trimLines hx).Idempotent := fun _ _ hr h =>
  (fixes_trimLines_iff hx ((trimLines hx).kept hr h).read).mpr (trimEnd_of_trimLines hx hr h)

/-- What compaction leaves. -/
theorem tidy_of_compact (hx : x.Steady) {keepIndent : Bool} (hr : r.Read x)
    (h : (compact hx keepIndent).row r = some r') :
    (r'.after.inLiteral = false → r'.line.text.trimEnd = r'.line.text) ∧
      Tidy keepIndent (r'.before = .code) r'.pieces := by
  rw [show (compact hx keepIndent).row r = some (r.rewritten x id (r.compact keepIndent)) from rfl,
    r.compact_eq] at h
  obtain rfl := Option.some.inj h
  refine ⟨r.trimEnd_spelled _, ?_⟩
  rw [Row.pieces_rewritten (g := id) hx rfl (hr.begins.squeeze hx keepIndent), Row.ended]
  split
  · exact (tidy_squeeze ..).merged (hr.spread.squeeze ..)
  · exact (tidy_squeeze ..).trimmed.merged (hr.spread.squeeze ..).trimmed

/-- Compaction has nothing to do on a row with few gaps and none at its end. -/
theorem fixes_compact_iff (hx : x.Steady) {keepIndent : Bool} (hr : r.Read x) :
    (compact hx keepIndent).Fixes r ↔
      (r.after.inLiteral = false → r.line.text.trimEnd = r.line.text) ∧
        Tidy keepIndent (r.before = .code) r.pieces := by
  refine ⟨fun h => tidy_of_compact hx hr h, fun ⟨htrim, htidy⟩ => ?_⟩
  refine congrArg some (Row.rewritten_id hx.regular hr ?_)
  rw [r.compact_eq, squeeze_of_tidy htidy, ← hr.trimmed_eq, Row.trimmed]
  split
  · rfl
  · rename_i ho
    rw [htrim (by simpa using ho)]
    rfl

theorem compact_idempotent (hx : x.Steady) (keepIndent : Bool) :
    (compact hx keepIndent).Idempotent := fun _ _ hr h =>
  (fixes_compact_iff hx ((compact hx keepIndent).kept hr h).read).mpr (tidy_of_compact hx hr h)

end Pass

end CleanCopy
