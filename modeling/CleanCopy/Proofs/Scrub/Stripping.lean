import CleanCopy.Proofs.Scrub.Pipeline
import CleanCopy.Proofs.Scrub.Rewriting
import CleanCopy.Scrub.Comments

namespace CleanCopy

open Piece

/-- What becomes of a row when `t` is all that is left of its text. -/
def Row.left (r : Row) (t : Text) : Option Line :=
  if r.after.inLiteral then some (r.line.withText t)
  else if t.isBlank then none
  else some (r.line.withText t.trimEnd)

variable {x : Lexicon} {r r' : Row} {cls : CommentClass} {l : Line} {t b : Text}

namespace Piece

theorem without_cons (p : Piece) (ps : List Piece) :
    without cls (p :: ps) = without cls [p] ++ without cls ps :=
  List.filter_append [p] ps

theorem alters_without (cls : CommentClass) (ps : List Piece) : Alters ps (without cls ps) := by
  induction ps with
  | nil => exact .nil
  | cons p ps ih =>
    cases hp : p.isComment cls with
    | true =>
      obtain ⟨t, rfl⟩ := eq_comment_of_isComment hp
      rw [without_cons_of_comment hp]
      exact .removed cls t ih
    | false =>
      rw [without_cons_of_not_comment hp]
      exact .same p ih

theorem lacks_without (cls : CommentClass) (ps : List Piece) : Lacks cls (without cls ps) := by
  intro p hp
  simpa using (List.mem_filter.mp hp).2

theorem without_of_lacks {ps : List Piece} (h : Lacks cls ps) : without cls ps = ps :=
  List.filter_eq_self.mpr fun p hp => by simp [h p hp]

end Piece

namespace Lexicon

/-- Pieces without comments of a class go on with none. -/
theorem Begins.ne_block {k k' : Carry} {ps : List Piece} (h : x.Begins k ps k') (hl : Lacks cls ps) :
    k ≠ .block cls := by
  rintro rfl
  cases h with
  | closed _ first _ =>
    have hp := isComment_of_resume? first cls
    rw [decide_eq_true rfl] at hp
    exact Bool.false_ne_true ((hl _ List.mem_cons_self).symm.trans hp)
  | unclosed _ last =>
    have hp := isComment_of_resume? last cls
    rw [decide_eq_true rfl] at hp
    exact Bool.false_ne_true ((hl _ List.mem_cons_self).symm.trans hp)

end Lexicon

namespace Row

/-- A row without comments of a class continues none and leaves none open. -/
theorem Read.without_carries (hx : x.Detachable) (hr : r.Read x) (h : Lacks cls r.pieces) :
    r.before.without cls = r.before ∧ r.after.without cls = r.after := by
  have hb := hr.begins.lift hx cls
  have hbefore := Lexicon.without_of_ne (hr.begins.ne_block h)
  rw [hbefore, without_of_lacks h] at hb
  have := (hb.scan_eq hx.regular.filled).symm.trans (hr.begins.scan_eq hx.regular.filled)
  exact ⟨hbefore, congrArg Scanned.after this⟩

theorem withoutComments_of_lacks (h : Lacks cls r.pieces) : r.withoutComments cls = some r.line := by
  rw [withoutComments, lacks_iff_any.mp h, if_neg Bool.false_ne_true]

theorem withoutComments_eq_left (h : ¬ Lacks cls r.pieces) :
    r.withoutComments cls = r.left (wording (without cls r.pieces)) := by
  rw [lacks_iff_any, Bool.not_eq_false] at h
  exact if_pos h

theorem withoutComments_of_not_lacks (h : ¬ Lacks cls r.pieces) :
    r.withoutComments cls =
      if !r.after.inLiteral && (wording (without cls r.pieces)).isBlank then none
      else some (r.spelled (without cls r.pieces)) := by
  rw [withoutComments_eq_left h, left, spelled, wording_ended]
  cases r.after.inLiteral with
  | true => rfl
  | false => rfl

theorem left_congr (r r' : Row) (hcr : r'.line.cr = r.line.cr)
    (ha : r'.after.inLiteral = r.after.inLiteral) (t : Text) : r'.left t = r.left t := by
  have hline (u : Text) : r'.line.withText u = r.line.withText u := by
    rw [Line.withText, Line.withText, hcr]
  rw [left, left, ha, hline, hline]

theorem left_append (ho : r.after.inLiteral = false) (hb : b.isBlank = true) (t : Text) :
    r.left (t ++ b) = r.left t := by
  have hout : ¬ r.after.inLiteral = true := by simp [ho]
  rw [left, left, if_neg hout, if_neg hout, Text.isBlank_append, hb, Bool.and_true,
    Text.trimEnd_append_of_blank t hb]

theorem left_eq_none_iff : r.left t = none ↔ r.after.inLiteral = false ∧ t.isBlank = true := by
  rw [left]
  cases r.after.inLiteral <;> cases t.isBlank <;> simp

theorem eq_of_left (h : r.left t = some l) :
    l = r.line.withText (if r.after.inLiteral then t else t.trimEnd) := by
  rw [left] at h
  split
  · rename_i ho
    rw [if_pos ho] at h
    exact (Option.some.inj h).symm
  · rename_i ho
    rw [if_neg ho] at h
    split at h
    · cases h
    · exact (Option.some.inj h).symm

theorem eq_spelled_of_left {qs : List Piece} (h : r.left (wording qs) = some l) :
    l = r.spelled qs := by
  rw [spelled, wording_ended]
  exact eq_of_left h

/-- What is left of a row is left as it is. -/
theorem left_text (h : r.left t = some l) : r.left l.text = some l := by
  have hl := congrArg Line.text (eq_of_left h)
  cases ho : r.after.inLiteral with
  | true =>
    rw [ho, if_pos rfl] at hl
    rw [hl]
    exact h
  | false =>
    rw [ho, if_neg Bool.false_ne_true] at hl
    obtain ⟨b, hb, ht⟩ := t.exists_trimEnd_append
    rw [hl]
    change r.left t.trimEnd = _
    rw [← left_append ho hb, ht]
    exact h

end Row

namespace Pass

/-- The removal of comments. -/
def strip (hx : x.Steady) (hd : x.Detachable) (cls : CommentClass) : Pass x where
  row r := (r.withoutComments cls).map (r.rewritten x (·.without cls))
  carry k := k.without cls
  carry_code := rfl
  inLiteral_carry := Carry.inLiteral_without cls
  kept {r r'} hr h := by
    by_cases hl : Lacks cls r.pieces
    · obtain ⟨hb, ha⟩ := hr.without_carries hd hl
      rw [Row.withoutComments_of_lacks hl, Option.map_some,
        Row.rewritten_line hx.regular hr hb ha] at h
      obtain rfl := Option.some.inj h
      exact hr.rewrites_self hb ha
    · rw [Row.withoutComments_of_not_lacks hl] at h
      split at h
      · cases h
      · obtain rfl := Option.some.inj h
        exact hr.rewrites hx (Carry.inLiteral_without cls) (alters_without cls _) (hr.begins.lift hd cls)
  dropped {r} hr h := by
    have hnone : r.withoutComments cls = none := Option.map_eq_none_iff.mp h
    have hl : ¬ Lacks cls r.pieces := by
      intro hl
      rw [Row.withoutComments_of_lacks hl] at hnone
      cases hnone
    rw [Row.withoutComments_of_not_lacks hl] at hnone
    split at hnone
    · rename_i hblank
      rw [Bool.and_eq_true, Bool.not_eq_true'] at hblank
      have hb := hr.begins.lift hd cls
      have hcarry := hb.after_of_isBlank hx.regular hblank.2
      have hout : r.before.inLiteral = false := by
        rw [← Carry.inLiteral_without cls, ← hcarry, Carry.inLiteral_without, hblank.1]
      have halt := alters_without cls r.pieces
      refine ⟨hcarry, hout, ?_, ?_⟩
      · refine Row.literals_of_eq_nil ?_
        rw [← halt.literals_eq]
        exact hb.literals_of_isBlank hx.regular hblank.2 (by rw [Carry.inLiteral_without, hout])
      · rw [← halt.visibleCode_eq]
        exact visibleCode_of_isBlank hblank.2
    · cases hnone

variable (hx : x.Steady) (hd : x.Detachable)

theorem apply_strip (cls : CommentClass) (d : Document) :
    (strip hx hd cls).apply d = d.stripComments x cls := by
  have hline (r : Row) : ((strip hx hd cls).row r).map Row.line = r.withoutComments cls := by
    change ((r.withoutComments cls).map _).map Row.line = _
    rw [Option.map_map]
    exact Option.map_id'
  rw [apply, Document.stripComments, List.map_filterMap]
  simp only [hline]

theorem lacks_of_strip (hr : r.Read x) (h : (strip hx hd cls).row r = some r') :
    Lacks cls r'.pieces := by
  by_cases hl : Lacks cls r.pieces
  · exact ((strip hx hd cls).kept hr h).lacks hl
  · change (r.withoutComments cls).map _ = some r' at h
    rw [Row.withoutComments_of_not_lacks hl] at h
    split at h
    · cases h
    · obtain rfl := Option.some.inj h
      rw [Row.pieces_rewritten hx (Carry.inLiteral_without cls _) (hr.begins.lift hd cls), Row.ended]
      split
      · exact (lacks_without cls _).merged
      · exact (lacks_without cls _).trimmed.merged

/-- Comments of a class are all that the pass looks for. -/
theorem fixes_strip (hr : r.Read x) : (strip hx hd cls).Fixes r ↔ Lacks cls r.pieces := by
  constructor
  · exact fun h => lacks_of_strip hx hd hr h
  · intro hl
    obtain ⟨hb, ha⟩ := hr.without_carries hd hl
    change (r.withoutComments cls).map _ = some r
    rw [Row.withoutComments_of_lacks hl, Option.map_some, Row.rewritten_line hx.regular hr hb ha]

theorem strip_idempotent (cls : CommentClass) : (strip hx hd cls).Idempotent := by
  intro r r' hr h
  exact (fixes_strip hx hd ((strip hx hd cls).kept hr h).read).mpr (lacks_of_strip hx hd hr h)

theorem respects_strip (Q : Pass x) (cls : CommentClass) : Q.Respects (strip hx hd cls) := by
  intro r r' hr hfix h
  have hk := Q.kept hr h
  exact (fixes_strip hx hd hk.read).mpr (hk.lacks ((fixes_strip hx hd hr).mp hfix))

end Pass

end CleanCopy
