import CleanCopy.Proofs.Lex.Structure
import CleanCopy.Proofs.Scrub.Spans

namespace CleanCopy.Text

open Piece

variable {offset : Nat} {opener closer t before inside body rest : Text} {keep : Text → Bool}

/-- A text around its first comment. -/
theorem append_comment (h : cut? opener t = some (before, inside))
    (h' : cut? closer inside = some (body, rest)) :
    before ++ (opener ++ body ++ closer ++ rest) = t := by
  rw [← cut?_append h, ← cut?_append h']
  simp only [List.append_assoc]

/-- A comment, or code in the form of one. -/
def blockPiece (keep : Text → Bool) (body t : Text) : Piece :=
  if keep body then .code t else .comment .plain t

/-- The comments from an opener through the first closer after it, or through the end of the text,
and the code around them. Those with a body to keep are code. -/
def blockPieces (opener closer : Text) (keep : Text → Bool) (t : Text) : List Piece :=
  match cut? opener t with
  | none => [.code t]
  | some (before, inside) =>
    match cut? closer inside with
    | none => [.code before, blockPiece keep inside (opener ++ inside)]
    | some (body, rest) =>
      if rest.length < t.length then
        .code before :: blockPiece keep body (opener ++ body ++ closer) ::
          blockPieces opener closer keep rest
      else [.code t]
  termination_by t.length

@[simp] theorem text_blockPiece (keep : Text → Bool) (body t : Text) :
    (blockPiece keep body t).text = t := by
  rw [blockPiece]
  split <;> rfl

theorem wording_without_blockPiece (keep : Text → Bool) (body t : Text) (ps : List Piece) :
    wording (without .plain (blockPiece keep body t :: ps)) =
      (if keep body then t else []) ++ wording (without .plain ps) := by
  rw [blockPiece]
  cases keep body <;> rfl

theorem lacks_blockPiece_cons (keep : Text → Bool) (body t : Text) (ps : List Piece) :
    Lacks .plain (blockPiece keep body t :: ps) ↔ keep body = true ∧ Lacks .plain ps := by
  rw [lacks_cons, blockPiece]
  cases keep body <;> simp [isComment]

theorem wording_blockPieces (opener closer : Text) (keep : Text → Bool) (t : Text) :
    wording (blockPieces opener closer keep t) = t := by
  fun_induction blockPieces opener closer keep t with
  | case1 t h => exact List.append_nil t
  | case2 t before inside h h' =>
    rw [← cut?_append h, wording_cons, wording_cons, text_blockPiece, wording_nil, List.append_nil,
      List.append_assoc]
    rfl
  | case3 t before inside h body rest h' hlt ih =>
    rw [wording_cons, wording_cons, ih, text_blockPiece]
    exact append_comment h h'
  | case4 t before inside h body rest h' hlt => exact List.append_nil t

theorem exists_text_of_mem_blockPieces {p : Piece} {cls : CommentClass}
    (h : p ∈ blockPieces opener closer keep t) (hp : p.isComment cls = true) :
    ∃ u, p.text = opener ++ u := by
  have hblock {body u : Text} (h : p = blockPiece keep body (opener ++ u)) :
      ∃ u, p.text = opener ++ u := ⟨u, h ▸ text_blockPiece ..⟩
  have hcode {u : Text} (h : p = .code u) : ∃ u, p.text = opener ++ u := by
    rw [h] at hp
    cases hp
  fun_induction blockPieces opener closer keep t with
  | case1 t _ => exact hcode (List.mem_singleton.mp h)
  | case2 t before inside _ _ =>
    rcases List.mem_cons.mp h with h | h
    · exact hcode h
    · exact hblock (List.mem_singleton.mp h)
  | case3 t before inside _ body rest _ _ ih =>
    rcases List.mem_cons.mp h with h | h
    · exact hcode h
    · rcases List.mem_cons.mp h with h | h
      · rw [List.append_assoc] at h
        exact hblock h
      · exact ih h
  | case4 t before inside _ body rest _ _ => exact hcode (List.mem_singleton.mp h)

theorem le_start_of_mem_blockSpans {s : Span} (h : s ∈ blockSpans opener closer keep offset t) :
    offset ≤ s.start := by
  fun_induction blockSpans opener closer keep offset t <;> grind

/-- What the spans of the comments leave is what the other pieces spell. -/
theorem outside_blockSpans (opener closer : Text) (keep : Text → Bool) (offset : Nat) (t : Text) :
    outside (blockSpans opener closer keep offset t) offset t =
      wording (without .plain (blockPieces opener closer keep t)) := by
  fun_induction blockPieces opener closer keep t generalizing offset with
  | case1 t h =>
    rw [blockSpans, h, outside_of_apart (by simp)]
    exact (List.append_nil t).symm
  | case2 t before inside h h' =>
    have ht : before ++ (opener ++ inside ++ []) = t := by
      rw [← cut?_append h]
      simp
    rw [blockSpans, h, without_cons_of_not_comment rfl, wording_cons, wording_without_blockPiece]
    simp only [h']
    rw [← ht]
    cases keep inside with
    | true => exact outside_of_apart (by simp)
    | false => exact outside_cut rfl (by simp [Nat.add_assoc]) (by simp) []
  | case3 t before inside h body rest h' hlt ih =>
    rw [blockSpans, h, without_cons_of_not_comment rfl, wording_cons, wording_without_blockPiece]
    simp only [h', hlt, if_true]
    rw [← append_comment h h']
    set stop := offset + before.byteSize + opener.byteSize + body.byteSize + closer.byteSize
    have hstop : stop = offset + before.byteSize + (opener ++ body ++ closer).byteSize := by
      simp only [byteSize_append, stop]
      omega
    have hlater : ∀ s ∈ blockSpans opener closer keep stop rest, stop ≤ s.start :=
      fun s hs => le_start_of_mem_blockSpans hs
    cases keep body with
    | true =>
      have hbefore (s : Span) (hs : s ∈ blockSpans opener closer keep stop rest) :
          offset + before.byteSize ≤ s.start := by
        have := hlater s hs
        omega
      rw [if_pos rfl, outside_append_of_le hbefore, outside_append_of_le (hstop ▸ hlater), ← hstop, ih]
      rfl
    | false =>
      rw [if_neg Bool.false_ne_true, outside_cut rfl hstop hlater, ih]
      rfl
  | case4 t before inside h body rest h' hlt =>
    rw [blockSpans, h]
    simp only [h', hlt, if_false]
    rw [outside_of_apart (by simp)]
    exact (List.append_nil t).symm

theorem blockSpans_eq_nil_iff (opener closer : Text) (keep : Text → Bool) (offset : Nat) (t : Text) :
    blockSpans opener closer keep offset t = [] ↔
      Lacks .plain (blockPieces opener closer keep t) := by
  have hcode (u : Text) : Lacks .plain [.code u] := lacks_cons.mpr ⟨rfl, nofun⟩
  fun_induction blockPieces opener closer keep t generalizing offset with
  | case1 t h =>
    rw [blockSpans, h]
    exact iff_of_true rfl (hcode t)
  | case2 t before inside h h' =>
    rw [blockSpans, h, lacks_cons, lacks_blockPiece_cons]
    simp only [h']
    cases keep inside with
    | true => exact iff_of_true rfl ⟨rfl, rfl, nofun⟩
    | false => exact iff_of_false (List.cons_ne_nil _ _) fun h => Bool.false_ne_true h.2.1
  | case3 t before inside h body rest h' hlt ih =>
    rw [blockSpans, h, lacks_cons, lacks_blockPiece_cons]
    simp only [h', hlt, if_true]
    cases keep body with
    | true => exact (ih _).trans ⟨fun h => ⟨rfl, rfl, h⟩, fun h => h.2.2⟩
    | false => exact iff_of_false (List.cons_ne_nil _ _) fun h => Bool.false_ne_true h.2.1
  | case4 t before inside h body rest h' hlt =>
    rw [blockSpans, h]
    simp only [h', hlt, if_false]
    exact iff_of_true trivial (hcode t)

end CleanCopy.Text
