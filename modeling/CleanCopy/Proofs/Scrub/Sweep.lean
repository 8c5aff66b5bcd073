import CleanCopy.Proofs.Lex.Steady
import CleanCopy.Proofs.Scrub.Stripping

namespace CleanCopy

open Piece

def Piece.isAnyComment : Piece → Bool
  | comment _ _ => true
  | _ => false

/-- A line without the pieces that are to go. -/
def Row.swept (goes : Piece → Bool) (r : Row) : Option Line :=
  if r.pieces.any goes then r.left (wording (r.pieces.filter (!goes ·))) else some r.line

/-- The document without the pieces that are to go, all of them found in one reading. -/
def Document.sweep (x : Lexicon) (goes : Piece → Bool) (d : Document) : Document :=
  d.withLines ((x.rows d).filterMap (·.swept goes))

theorem Document.stripComments_eq_sweep (x : Lexicon) (cls : CommentClass) (d : Document) :
    d.stripComments x cls = d.sweep x (·.isComment cls) := rfl

variable {x : Lexicon} {r : Row} {cls : CommentClass} {l : Line}

namespace Piece

theorem wording_without_merge (p : Piece) (ps : List Piece) :
    wording (without cls (merge p ps)) = wording (without cls (p :: ps)) := by
  match p, ps with
  | code [], ps => rfl
  | code (c :: t), [] => rfl
  | code (c :: t), code u :: qs =>
    change (c :: t ++ u) ++ wording (without cls qs) = _
    rw [List.append_assoc]
    rfl
  | code (c :: t), literal u :: qs => rfl
  | code (c :: t), comment d u :: qs => rfl
  | literal t, ps => rfl
  | comment d t, ps => rfl

theorem wording_without_merged (ps : List Piece) :
    wording (without cls (merged ps)) = wording (without cls ps) := by
  induction ps with
  | nil => rfl
  | cons p ps ih =>
    rw [merged_cons, wording_without_merge, without_cons, wording_append, ih, ← wording_append,
      ← without_cons]

theorem isBlank_wording_without (cls : CommentClass) {ps : List Piece}
    (h : (wording ps).isBlank = true) :
    (wording (without cls ps)).isBlank = true := by
  rw [Text.isBlank_iff] at h ⊢
  intro c hc
  obtain ⟨p, hp, hcp⟩ := List.mem_flatMap.mp hc
  exact h c (List.mem_flatMap.mpr ⟨p, (List.mem_filter.mp hp).1, hcp⟩)

theorem isComment_or {cls cls' : CommentClass} (h : cls ≠ cls') (p : Piece) :
    (p.isComment cls || p.isComment cls') = p.isAnyComment := by
  cases p with
  | code t => rfl
  | literal t => rfl
  | comment c t => cases c <;> cases cls <;> cases cls' <;> first | rfl | exact absurd rfl h

/-- Whether pieces are trimmed before comments go makes a difference only to the blanks at their
end. -/
theorem exists_wording_without_trimmed (cls : CommentClass) (ps : List Piece) :
    ∃ b : Text, b.isBlank = true ∧
      wording (without cls (trimmed ps)) ++ b = wording (without cls ps) := by
  induction ps with
  | nil => exact ⟨[], rfl, rfl⟩
  | cons p ps ih =>
    rw [trimmed, without_cons p ps, wording_append]
    split
    · rename_i hb
      have hrest := isBlank_wording_without cls hb
      split
      · rename_i hp
        have hfirst : (wording (without cls [p])).isBlank = true := by
          refine isBlank_wording_without cls ?_
          rw [wording_cons, wording_nil, List.append_nil]
          exact (Bool.and_eq_true_iff.mp hp).2
        refine ⟨wording (without cls [p]) ++ wording (without cls ps), ?_, rfl⟩
        rw [Text.isBlank_append, hfirst, hrest]
        rfl
      · cases hp : p.isComment cls with
        | true =>
          rw [without_cons_of_comment hp, without_cons_of_comment (by cases p <;> exact hp)]
          exact ⟨_, hrest, rfl⟩
        | false =>
          obtain ⟨b, hb, htext⟩ := p.text.exists_trimEnd_append
          rw [without_cons_of_not_comment hp,
            without_cons_of_not_comment (by cases p <;> exact hp)]
          refine ⟨b ++ wording (without cls ps), ?_, ?_⟩
          · rw [Text.isBlank_append, hb, hrest]
            rfl
          · simp only [without_nil, wording_cons, wording_nil, text_withText, List.append_nil]
            rw [← List.append_assoc, htext]
    · obtain ⟨b, hb, htext⟩ := ih
      refine ⟨b, hb, ?_⟩
      rw [without_cons, wording_append, List.append_assoc, htext]

end Piece

namespace Row

/-- Where nothing is read anew, comments of a class may go from what is left of a row or from the
row itself. -/
theorem withoutComments_rewritten (hx : x.Steady) {g : Carry → Carry} {qs : List Piece}
    (hg : ∀ k, (g k).inLiteral = k.inLiteral) (hb : x.Begins (g r.before) qs (g r.after))
    (h : r.left (wording qs) = some l) :
    (r.rewritten x g l).withoutComments cls = r.left (wording (without cls qs)) := by
  obtain rfl := eq_spelled_of_left h
  have hpieces := pieces_rewritten hx (hg _) hb
  have hkept : r.left (wording (without cls (merged (r.ended qs)))) =
      r.left (wording (without cls qs)) := by
    rw [wording_without_merged, ended]
    cases ho : r.after.inLiteral with
    | true => rfl
    | false =>
      obtain ⟨b, hb, hw⟩ := exists_wording_without_trimmed cls qs
      rw [if_neg Bool.false_ne_true, ← hw, left_append ho hb]
  by_cases hl : Lacks cls (r.rewritten x g (r.spelled qs)).pieces
  · rw [withoutComments_of_lacks hl, ← hkept, ← hpieces, without_of_lacks hl, hpieces,
      wording_merged]
    exact (left_text h).symm
  · rw [withoutComments_eq_left hl, hpieces, ← hkept]
    exact left_congr r (r.rewritten x g (r.spelled qs)) rfl (hg r.after) _

theorem swept_congr {f g : Piece → Bool} (h : ∀ p ∈ r.pieces, f p = g p) :
    r.swept f = r.swept g := by
  have hany : r.pieces.any f = r.pieces.any g := by
    rw [Bool.eq_iff_iff, List.any_eq_true, List.any_eq_true]
    exact exists_congr fun p => and_congr_right fun hp => by rw [h p hp]
  rw [swept, swept, hany, List.filter_congr fun p hp => congrArg (!·) (h p hp)]

theorem swept_or_of_not_lacks (h : ¬ Lacks cls r.pieces) (cls' : CommentClass) :
    r.swept (fun p => p.isComment cls || p.isComment cls') =
      r.left (wording (without cls' (without cls r.pieces))) := by
  obtain ⟨p, hp, hcls⟩ : ∃ p ∈ r.pieces, p.isComment cls = true := by
    simpa [Lacks] using h
  have hany : r.pieces.any (fun p => p.isComment cls || p.isComment cls') = true :=
    List.any_eq_true.mpr ⟨p, hp, by rw [hcls, Bool.true_or]⟩
  have hkept : r.pieces.filter (fun p => !(p.isComment cls || p.isComment cls')) =
      without cls' (without cls r.pieces) := by
    rw [without, without, List.filter_filter]
    exact List.filter_congr fun p _ => by rw [Bool.not_or, Bool.and_comm]
  rw [swept, if_pos hany, hkept]

end Row

namespace Pass

/-- The removal of comments of two classes, row by row. -/
theorem withoutComments_strip (hx : x.Steady) (hd : x.Detachable) (hr : r.Read x)
    (cls cls' : CommentClass) :
    ((strip hx hd cls).row r).bind (·.withoutComments cls') =
      r.swept fun p => p.isComment cls || p.isComment cls' := by
  by_cases hl : Lacks cls r.pieces
  · have hfix : (strip hx hd cls).row r = some r := (fixes_strip hx hd hr).mpr hl
    rw [hfix]
    exact Row.swept_congr fun p hp => by rw [hl p hp, Bool.false_or]
  · rw [Row.swept_or_of_not_lacks hl]
    change ((r.withoutComments cls).map (r.rewritten x (·.without cls))).bind _ = _
    rw [Row.withoutComments_eq_left hl]
    cases h : r.left (wording (without cls r.pieces)) with
    | none =>
      obtain ⟨ho, hb⟩ := Row.left_eq_none_iff.mp h
      exact (Row.left_eq_none_iff.mpr ⟨ho, isBlank_wording_without _ hb⟩).symm
    | some l =>
      exact Row.withoutComments_rewritten hx (Carry.inLiteral_without cls)
        (hr.begins.lift hd cls) h

end Pass

namespace Document

/-- To remove comments of one class and then those of another is to remove both at once. -/
theorem stripComments_stripComments (hx : x.Steady) (hd : x.Detachable) (cls cls' : CommentClass)
    (d : Document) : (d.stripComments x cls).stripComments x cls' =
      d.sweep x fun p => p.isComment cls || p.isComment cls' := by
  rw [← Pass.apply_strip hx hd cls, stripComments, Pass.rows_apply _ hx.regular,
    List.filterMap_filterMap]
  change d.withLines _ = d.withLines _
  exact congrArg d.withLines <| List.filterMap_congr fun r hr =>
    Pass.withoutComments_strip hx hd (x.rows_read hx.regular.filled d r hr) cls cls'

/-- Plain comments and documentation may go in either order, or in one sweep. -/
theorem stripComments_sweep (d : Document) :
    let x := Lexicon.typeScript
    (d.stripComments x .plain).stripComments x .doc = d.sweep x Piece.isAnyComment ∧
      (d.stripComments x .doc).stripComments x .plain = d.sweep x Piece.isAnyComment := by
  have hboth := stripComments_stripComments Lexicon.typeScript_steady Lexicon.typeScript_detachable
  have hplain : (fun p : Piece => p.isComment .plain || p.isComment .doc) = isAnyComment :=
    funext (isComment_or (by decide))
  have hdoc : (fun p : Piece => p.isComment .doc || p.isComment .plain) = isAnyComment :=
    funext (isComment_or (by decide))
  exact ⟨(hboth .plain .doc d).trans (by rw [hplain]), (hboth .doc .plain d).trans (by rw [hdoc])⟩

end Document

end CleanCopy
