import CleanCopy.Proofs.Lex.Lookahead
import CleanCopy.Proofs.Text.Gaps

namespace CleanCopy

/-- A character that delimiters are made of: neither a gap nor punctuation. -/
def isFirm (c : Char) : Bool := !isGap c && !isPunctuation c

/-- Text `r'` begins as `r` does, up to the first character that no delimiter is made of. -/
def Text.Leads (r r' : Text) : Prop := r'.takeWhile isFirm <+: r

namespace Piece

/-- Pieces without the blanks at their end. -/
def trimmed : List Piece → List Piece
  | [] => []
  | p :: ps =>
    if (wording ps).isBlank then
      if p.isCode && p.text.isBlank then [] else [p.withText p.text.trimEnd]
    else p :: trimmed ps

theorem trimmed_singleton {p : Piece} (h : p.isCode = false) :
    trimmed [p] = [p.withText p.text.trimEnd] := by
  rw [trimmed, if_pos (by rfl), h, Bool.false_and, if_neg Bool.false_ne_true]

theorem wording_trimmed (ps : List Piece) : wording (trimmed ps) = (wording ps).trimEnd := by
  induction ps with
  | nil => rfl
  | cons p ps ih =>
    rw [trimmed, wording_cons]
    cases hb : (wording ps).isBlank with
    | false => rw [if_neg Bool.false_ne_true, wording_cons, ih, Text.trimEnd_append_of_not_blank _ hb]
    | true =>
      rw [if_pos rfl, Text.trimEnd_append_of_blank _ hb]
      split
      · rename_i hc
        rw [Text.trimEnd_eq_nil_iff.mpr (Bool.and_eq_true_iff.mp hc).2]
        rfl
      · simp

end Piece

namespace Lexicon

open Piece Text

variable {x : Lexicon} {odd : Bool} {t r r' : Text} {p : Piece} {ps : List Piece} {k k' : Carry}

theorem Allows.lexeme?_eq_none (ha : x.Allows r r') {c : Char} {s : Text}
    (h : x.lexeme? odd (c :: (s ++ r)) = none) : x.lexeme? odd (c :: (s ++ r')) = none :=
  lexeme?_eq_none_iff.mpr ((lexeme?_eq_none_iff.mp h).imp id (ha.clear c s))

theorem Passes.congr (ha : x.Allows r r') (h : x.Passes r odd t) : x.Passes r' odd t := by
  induction t generalizing odd with
  | nil => trivial
  | cons c cs ih => exact ⟨ha.lexeme?_eq_none h.1, ih h.2⟩

theorem passes_append {s : Text} :
    x.Passes r odd (s ++ t) ↔ x.Passes (t ++ r) odd s ∧ x.Passes r (Escape.oddAfter odd s) t := by
  induction s generalizing odd with
  | nil => simp [Passes, Escape.oddAfter]
  | cons c s ih => simp only [List.cons_append, Passes, ih, List.append_assoc, and_assoc]; rfl

/-- What the passes that only touch whitespace ask of a lexicon. -/
structure Steady (x : Lexicon) : Prop where
  regular : x.Regular
  simple : x.Simple
  allows : ∀ {r r' : Text}, r.Leads r' → x.Allows r r'
  inert : ∀ c t, isPunctuation c = true → x.token? (c :: t) = none

theorem leads_trimEnd (t : Text) : t.Leads t.trimEnd :=
  (List.takeWhile_prefix _).trans (trimEnd_isPrefix t)

theorem leads_nil (t : Text) : t.Leads [] := List.nil_prefix

/-- Blank pieces are code and leave nothing open. -/
theorem Reads.of_isBlank (hx : x.Regular) (h : x.Reads odd ps k)
    (hb : (wording ps).isBlank = true) : (∀ p ∈ ps, p.isCode = true) ∧ k = .code := by
  induction h with
  | done => exact ⟨List.forall_mem_nil _, rfl⟩
  | code _ _ ih =>
    rw [wording_cons, isBlank_append, Bool.and_eq_true] at hb
    exact ⟨List.forall_mem_cons.mpr ⟨rfl, (ih hb.2).1⟩, (ih hb.2).2⟩
  | closed first _ _ =>
    cases ((sealed_of_lexeme? first).isBlank_wording hx.unbroken _).symm.trans hb
  | unclosed last =>
    cases (isBlank_wording_of_unclosed hx.unbroken last).symm.trans hb

theorem Sealed.trimmed_cons (hx : x.Regular) (h : x.Sealed p) (ps : List Piece) :
    trimmed (p :: ps) = p :: if (wording ps).isBlank then [] else trimmed ps := by
  rw [trimmed]
  split
  · rw [h.not_code, Bool.false_and, if_neg Bool.false_ne_true, h.trimEnd_text hx.unbroken]
    cases p <;> rfl
  · rfl

/-- Trimming the end of a line that leaves no literal open changes no piece but the last. -/
theorem Reads.trimmed (hx : x.Steady) (h : x.Reads odd ps k) (hk : k.inLiteral = false) :
    x.Reads odd (Piece.trimmed ps) k := by
  induction h with
  | done => exact .done _
  | @code odd t ps k free later ih =>
    rw [Piece.trimmed]
    cases hb : (wording ps).isBlank with
    | false =>
      rw [if_neg Bool.false_ne_true]
      refine .code ?_ (ih hk)
      rw [wording_trimmed]
      exact free.congr (hx.allows (leads_trimEnd _))
    | true =>
      -- All that follows is blank, so that this is the last piece, and it may go as well.
      obtain rfl := (later.of_isBlank hx.regular hb).2
      rw [if_pos rfl]
      split
      · exact .done _
      · obtain ⟨b, -, ht⟩ := exists_trimEnd_append t
        rw [← ht, passes_append] at free
        refine .code ?_ (.done _)
        exact free.1.congr (hx.allows (leads_nil _))
  | @closed odd p ps k first later ih =>
    rw [(sealed_of_lexeme? first).trimmed_cons hx.regular]
    cases hb : (wording ps).isBlank with
    | false =>
      refine .closed ?_ (ih hk)
      rw [if_neg Bool.false_ne_true, wording_trimmed]
      exact (hx.allows (leads_trimEnd _)).lexeme? hx.regular first
    | true =>
      obtain rfl := (later.of_isBlank hx.regular hb).2
      exact .closed ((hx.allows (leads_nil _)).lexeme? hx.regular first) (.done _)
  | @unclosed odd p k last =>
    rw [Piece.trimmed_singleton (not_code_of_unclosed last)]
    refine .unclosed ?_
    rw [text_withText]
    exact lexeme?_trimEnd hx.regular hx.simple last hk

theorem Begins.trimmed (hx : x.Steady) (h : x.Begins k ps k') (hk : k'.inLiteral = false) :
    x.Begins k (Piece.trimmed ps) k' := by
  cases h with
  | code h => exact .code (h.trimmed hx hk)
  | @closed _ _ p ps fits first later =>
    rw [(sealed_of_resume? fits first).trimmed_cons hx.regular]
    cases hb : (wording ps).isBlank with
    | false =>
      refine .closed fits ?_ (later.trimmed hx hk)
      rw [if_neg Bool.false_ne_true, wording_trimmed]
      exact (hx.allows (leads_trimEnd _)).resume? hx.regular fits first
    | true =>
      obtain rfl := (later.of_isBlank hx.regular hb).2
      exact .closed fits ((hx.allows (leads_nil _)).resume? hx.regular fits first) (.done _)
  | @unclosed _ p fits last =>
    rw [Piece.trimmed_singleton (not_code_of_resume? last)]
    refine .unclosed fits ?_
    rw [text_withText]
    cases k with
    | code => cases last
    | block cls => exact resume?_block_trimEnd hx.regular last
    | literal d => cases hk

end Lexicon

end CleanCopy
