import CleanCopy.Proofs.Lex.Lookahead
import CleanCopy.Proofs.Lex.Trimming

namespace CleanCopy

/-- Pieces without the comments of a class. -/
def Piece.without (cls : CommentClass) (ps : List Piece) : List Piece :=
  ps.filter (!·.isComment cls)

/-- What a line leaves open once the comments of a class are gone. -/
def Carry.without (cls : CommentClass) : Carry → Carry
  | block c => if c = cls then code else block c
  | k => k

namespace Carry

@[simp] theorem without_code (cls : CommentClass) : Carry.code.without cls = .code := rfl

@[simp] theorem inLiteral_without (cls : CommentClass) (k : Carry) :
    (k.without cls).inLiteral = k.inLiteral := by
  cases k with
  | code => rfl
  | block c =>
    rw [without]
    split <;> rfl
  | literal d => rfl

end Carry

namespace Piece

variable {cls : CommentClass} {p : Piece} {ps : List Piece}

@[simp] theorem without_nil : without cls [] = [] := rfl

theorem without_cons_of_comment (h : p.isComment cls = true) : without cls (p :: ps) = without cls ps :=
  List.filter_cons_of_neg (by simp [h])

theorem without_cons_of_not_comment (h : p.isComment cls = false) :
    without cls (p :: ps) = p :: without cls ps :=
  List.filter_cons_of_pos (by simp [h])

theorem eq_comment_of_isComment (h : p.isComment cls = true) : ∃ t, p = .comment cls t := by
  cases p with
  | code t => cases h
  | literal t => cases h
  | comment c t => exact ⟨t, by rw [eq_of_beq (show (c == cls) = true from h)]⟩

end Piece

/-- The comment or literal that a lexeme begins with. -/
def Lexeme.piece : Lexeme → Piece
  | closed p _ | unclosed p _ => p

namespace Lexicon

open Piece Escape

/-- What the removal of comments asks of a lexicon. -/
structure Detachable (x : Lexicon) : Prop where
  regular : x.Regular
  allows : ∀ {odd : Bool} {ps : List Piece} {k : Carry} (cls : CommentClass), x.Reads odd ps k →
    x.Allows (wording ps) (wording (without cls ps))
  closer : ∀ odd, oddAfter odd x.blockCloser = false

variable {x : Lexicon} {odd : Bool} {t : Text} {p : Piece} {ps : List Piece} {k k' : Carry}
  {cls : CommentClass}

theorem Detachable.oddAfter (hx : x.Detachable) (h : x.Sealed p) (hp : p.isComment cls = true) :
    oddAfter odd p.text = false := by
  cases h with
  | comment c head =>
    rw [Piece.text, oddAfter_append]
    exact hx.closer _
  | literal d hd head => cases hp

theorem odd_of_lexeme? {l : Lexeme} (h : x.lexeme? odd t = some l) : odd = false :=
  (lexeme?_eq_some h).1

/-- A comment that is open to the end of its line is all that the line leaves open. -/
theorem without_of_unclosed (h : x.lexeme? odd t = some (.unclosed p k)) :
    k.without cls = if p.isComment cls then .code else k := by
  obtain ⟨-, ⟨c, -, rfl, rfl⟩ | ⟨c, opener, body, -, -, -, -, rfl, rfl⟩ |
    ⟨d, -, body, -, -, -, rfl, rfl⟩⟩ := lexeme?_eq_unclosed h
  · rw [Carry.without_code, ite_self]
  · simp [Carry.without, Piece.isComment]
  · have hp : (Piece.literal t).isComment cls = false := rfl
    rw [hp, if_neg Bool.false_ne_true]
    split <;> rfl

theorem Reads.lift (hx : x.Detachable) (h : x.Reads odd ps k) (cls : CommentClass) :
    x.Reads odd (without cls ps) (k.without cls) := by
  induction h with
  | done => exact .done _
  | code free later ih =>
    rw [without_cons_of_not_comment rfl]
    exact .code (free.congr (hx.allows cls later)) ih
  | @closed odd p ps k first later ih =>
    cases hp : p.isComment cls with
    | true =>
      -- The parity behind the comment is the one before it: no backslash is in its closer.
      rw [without_cons_of_comment hp]
      rw [hx.oddAfter (sealed_of_lexeme? first) hp] at ih
      rw [odd_of_lexeme? first]
      exact ih
    | false =>
      rw [without_cons_of_not_comment hp]
      exact .closed ((hx.allows cls later).lexeme? hx.regular first) ih
  | @unclosed odd p k last =>
    rw [without_of_unclosed last]
    cases hp : p.isComment cls with
    | true =>
      rw [without_cons_of_comment hp]
      exact .done _
    | false =>
      rw [without_cons_of_not_comment hp]
      exact .unclosed last

/-- A line goes on with a comment of a class just if one is open before it. -/
theorem isComment_of_resume? {l : Lexeme} (h : x.resume? k t = some l) (cls : CommentClass) :
    l.piece.isComment cls = decide (k = .block cls) := by
  cases k with
  | code => cases h
  | block c =>
    have hl : l.piece.isComment cls = (c == cls) := by
      rw [← Option.some.inj h, blockRest]
      split <;> rfl
    rw [hl]
    cases c <;> cases cls <;> rfl
  | literal d =>
    rw [← Option.some.inj h, literalRest]
    split <;> simp [Lexeme.piece, isComment]

theorem without_of_ne (h : k ≠ .block cls) : k.without cls = k := by
  cases k with
  | code => rfl
  | block c => rw [Carry.without, if_neg fun hc => h (congrArg _ hc)]
  | literal d => rfl

theorem without_block (cls : CommentClass) : (Carry.block cls).without cls = .code := if_pos rfl

theorem Begins.lift (hx : x.Detachable) (h : x.Begins k ps k') (cls : CommentClass) :
    x.Begins (k.without cls) (without cls ps) (k'.without cls) := by
  cases h with
  | code h => exact .code (h.lift hx cls)
  | @closed _ _ p ps fits first later =>
    have hp : p.isComment cls = decide (k = .block cls) := isComment_of_resume? first cls
    by_cases hk : k = .block cls
    · rw [decide_eq_true hk] at hp
      have hlift := later.lift hx cls
      rw [hx.oddAfter (sealed_of_resume? fits first) hp] at hlift
      rw [without_cons_of_comment hp, hk, without_block]
      exact .code hlift
    · rw [decide_eq_false hk] at hp
      rw [without_cons_of_not_comment hp, without_of_ne hk]
      exact .closed fits ((hx.allows cls later).resume? hx.regular fits first) (later.lift hx cls)
  | @unclosed _ p fits last =>
    have hp : p.isComment cls = decide (k = .block cls) := isComment_of_resume? last cls
    by_cases hk : k = .block cls
    · rw [decide_eq_true hk] at hp
      rw [without_cons_of_comment hp, hk, without_block]
      exact .code (.done _)
    · rw [decide_eq_false hk] at hp
      rw [without_cons_of_not_comment hp, without_of_ne hk]
      exact .unclosed fits last

theorem token?_ne_blockComment (hx : x.blockComment = none) {c : CommentClass} {opener : Text} :
    x.token? t ≠ some (.blockComment c opener) := by
  intro ht
  obtain ⟨closer, hb⟩ := blockComment_of_token? ht
  cases hx.symm.trans hb

theorem Reads.ne_block (hx : x.blockComment = none) (h : x.Reads odd ps k) : k ≠ .block cls := by
  induction h with
  | done => exact nofun
  | code _ _ ih => exact ih
  | closed _ _ ih => exact ih
  | unclosed last =>
    obtain ⟨-, ⟨c, -, -, rfl⟩ | ⟨c, opener, body, ht, -⟩ | ⟨d, -, body, -, -, -, -, rfl⟩⟩ :=
      lexeme?_eq_unclosed last
    · exact nofun
    · exact absurd ht (token?_ne_blockComment hx)
    · split <;> exact nofun

theorem Begins.ne_block_after (hx : x.blockComment = none) (h : x.Begins k ps k')
    (hk : k ≠ .block cls) : k' ≠ .block cls := by
  cases h with
  | code h => exact h.ne_block hx
  | closed _ _ later => exact later.ne_block hx
  | unclosed => exact hk

theorem rowsFrom_ne_block (hx : x.blockComment = none) (hfilled : x.Filled) (hfits : k.Fits x)
    (hk : k ≠ .block cls) (ls : List Line) : ∀ r ∈ x.rowsFrom k ls, r.before ≠ .block cls := by
  induction ls generalizing k with
  | nil => exact fun r hr => absurd hr List.not_mem_nil
  | cons l ls ih =>
    have hb := (begins_scan hfilled hfits l.text).1
    rw [rowsFrom]
    exact List.forall_mem_cons.mpr ⟨hk, ih hb.fits (hb.ne_block_after hx hk)⟩

theorem typeScript_head?_of_comment {l : Lexeme} (h : typeScript.lexeme? odd t = some l)
    (hp : l.piece.isComment cls = true) : t.head? = some '/' := by
  have htok : ∃ tok, typeScript.token? t = some tok ∧ ∀ d, tok ≠ .literal d := by
    obtain ⟨-, ⟨c, ht, -⟩ | ⟨c, opener, body, ht, -⟩ | ⟨d, -, body, -, -, rfl⟩⟩ := lexeme?_eq_some h
    · exact ⟨_, ht, fun d h => by cases h⟩
    · exact ⟨_, ht, fun d h => by cases h⟩
    · rw [literalRest] at hp
      split at hp <;> cases hp
  obtain ⟨tok, ht, hlit⟩ := htok
  cases t with
  | nil => cases ht
  | cons c t =>
    rw [typeScript_token?_cons] at ht
    by_cases hc : c = '/'
    · rw [hc]
      rfl
    · rw [if_neg hc] at ht
      split at ht
      · exact absurd (Option.some.inj ht).symm (hlit _)
      · split at ht
        · exact absurd (Option.some.inj ht).symm (hlit _)
        · split at ht
          · exact absurd (Option.some.inj ht).symm (hlit _)
          · cases ht

/-- What follows a comment never comes to stand where an opener begins, but for one that the
comment itself began with. -/
theorem typeScript_head?_without (h : typeScript.Reads odd ps k)
    (hw : (wording (without cls ps)).head? = some '/' ∨ (wording (without cls ps)).head? = some '*') :
    (wording ps).head? = some '/' ∨ (wording ps).head? = some '*' := by
  have hkeep {p : Piece} {qs : List Piece} (hne : p.text ≠ [])
      (hw : (p.text ++ wording qs).head? = some '/' ∨ (p.text ++ wording qs).head? = some '*')
      (rs : List Piece) :
      (p.text ++ wording rs).head? = some '/' ∨ (p.text ++ wording rs).head? = some '*' := by
    rw [List.head?_append_of_ne_nil _ hne] at hw ⊢
    exact hw
  induction h with
  | done => exact hw
  | @code odd t ps k free later ih =>
    rw [without_cons_of_not_comment rfl, wording_cons] at hw
    cases t with
    | nil => exact ih hw
    | cons c t => exact hkeep (p := .code (c :: t)) (List.cons_ne_nil c t) hw ps
  | @closed odd p ps k first later ih =>
    cases hp : p.isComment cls with
    | true => exact .inl (typeScript_head?_of_comment first hp)
    | false =>
      rw [without_cons_of_not_comment hp] at hw
      exact hkeep ((sealed_of_lexeme? first).text_ne_nil typeScript_regular.filled) hw ps
  | @unclosed odd p k last =>
    cases hp : p.isComment cls with
    | true =>
      rw [wording_cons, wording_nil, List.append_nil]
      exact .inl (typeScript_head?_of_comment last hp)
    | false =>
      rw [without_cons_of_not_comment hp] at hw
      exact hw

theorem typeScript_detachable : typeScript.Detachable where
  regular := typeScript_regular
  allows _ h := typeScript_allows (typeScript_head?_without h)
  closer odd := by cases odd <;> rfl

theorem python_eq_cons_of_lineComment {c : CommentClass} (h : python.token? t = some (.lineComment c)) :
    ∃ u, t = '#' :: u := by
  cases t with
  | nil => cases h
  | cons a u =>
    rw [python_token?_cons] at h
    split at h
    · rename_i ha
      exact ⟨u, congrArg (· :: u) ha⟩
    · split at h
      · split at h <;> cases h
      · split at h
        · split at h <;> cases h
        · cases h

/-- Only a comment to the end of the line can go, and nothing is open behind it. -/
theorem python_without (h : python.Reads odd ps k) : without cls ps = ps ∨
    k = .code ∧ ∃ u, ps = without cls ps ++ [.comment cls ('#' :: u)] := by
  induction h with
  | done => exact .inl rfl
  | code _ _ ih =>
    rw [without_cons_of_not_comment rfl]
    exact ih.imp (congrArg _) fun ⟨hk, u, hu⟩ => ⟨hk, u, congrArg _ hu⟩
  | @closed odd p ps k first later ih =>
    have hp : p.isComment cls = false := by
      obtain ⟨-, ⟨c, -, hl⟩ | ⟨c, opener, body, ht, -⟩ | ⟨d, -, body, -, -, hl⟩⟩ :=
        lexeme?_eq_some first
      · cases hl
      · exact absurd ht (token?_ne_blockComment rfl)
      · obtain ⟨inner, rfl, -⟩ := literalRest_eq_closed hl.symm
        rfl
    rw [without_cons_of_not_comment hp]
    exact ih.imp (congrArg _) fun ⟨hk, u, hu⟩ => ⟨hk, u, congrArg _ hu⟩
  | @unclosed odd p k last =>
    cases hp : p.isComment cls with
    | false => exact .inl (without_cons_of_not_comment hp)
    | true =>
      refine .inr ?_
      obtain ⟨-, ⟨c, ht, hc, rfl⟩ | ⟨c, opener, body, ht, -⟩ | ⟨d, -, body, -, -, -, hl, -⟩⟩ :=
        lexeme?_eq_unclosed last
      · obtain ⟨u, hu⟩ := python_eq_cons_of_lineComment ht
        obtain ⟨v, rfl⟩ := eq_comment_of_isComment hp
        obtain rfl : v = _ := hu
        exact ⟨rfl, u, by rw [without_cons_of_comment hp, without_nil, List.nil_append]⟩
      · exact absurd ht (token?_ne_blockComment rfl)
      · rw [hl] at hp
        cases hp

/-- A comment reaches to the end of its line, so nothing comes to stand in its place. -/
theorem python_wording_without (h : python.Reads odd ps k) :
    wording (without cls ps) <+: wording ps := by
  obtain he | ⟨-, u, he⟩ : without cls ps = ps ∨ _ := python_without h
  · exact ⟨[], by rw [he, List.append_nil]⟩
  · exact ⟨_, by rw [← wording_append, ← he]⟩

theorem Begins.python_without (h : python.Begins k ps k') (hk : k ≠ .block cls) :
    without cls ps = ps ∨ k' = .code ∧ ∃ u, ps = without cls ps ++ [.comment cls ('#' :: u)] := by
  cases h with
  | code h => exact Lexicon.python_without h
  | @closed _ _ p _ _ first later =>
    have hp : p.isComment cls = false := (isComment_of_resume? first cls).trans (decide_eq_false hk)
    rw [without_cons_of_not_comment hp]
    exact (Lexicon.python_without later).imp (congrArg _) fun ⟨hk', u, hu⟩ =>
      ⟨hk', u, congrArg _ hu⟩
  | @unclosed _ p _ last =>
    have hp : p.isComment cls = false := (isComment_of_resume? last cls).trans (decide_eq_false hk)
    exact .inl (without_cons_of_not_comment hp)

theorem python_detachable : python.Detachable where
  regular := python_regular
  allows _ h := python_allows fun q _ hq => by
    obtain ⟨b, hb⟩ := python_wording_without h
    rw [← hb, List.head?_append, hq]
    rfl
  closer odd := by cases odd <;> rfl

end Lexicon

end CleanCopy
