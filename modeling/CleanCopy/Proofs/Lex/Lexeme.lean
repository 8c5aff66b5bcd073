import CleanCopy.Proofs.Lex.Token

namespace CleanCopy

namespace Piece

/-- The text that pieces spell. -/
def wording (ps : List Piece) : Text := ps.flatMap Piece.text

@[simp] theorem wording_nil : wording [] = [] := rfl

@[simp] theorem wording_cons (p : Piece) (ps : List Piece) :
    wording (p :: ps) = p.text ++ wording ps := rfl

@[simp] theorem wording_append (ps qs : List Piece) :
    wording (ps ++ qs) = wording ps ++ wording qs := List.flatMap_append

def isCode : Piece → Bool
  | code _ => true
  | _ => false

/-- The same sort of piece with another text. -/
def withText : Piece → Text → Piece
  | code _, t => code t
  | literal _, t => literal t
  | comment cls _, t => comment cls t

@[simp] theorem text_withText (p : Piece) (t : Text) : (p.withText t).text = t := by
  cases p <;> rfl

end Piece

/-- The text that a comment or literal and what follows it make up. -/
def Lexeme.text : Lexeme → Text
  | closed p rest => p.text ++ rest
  | unclosed p _ => p.text

/-- What may be open at the end of a line. -/
def Carry.Fits (x : Lexicon) : Carry → Prop
  | .literal d => d ∈ x.literals ∧ d.multiline = true
  | _ => True

namespace Lexicon

variable {x : Lexicon} {odd : Bool} {t : Text} {r r' : Text} {p : Piece} {k : Carry}

theorem drop_of_startsWith {s : Text} (h : t.startsWith s = true) :
    t = s ++ t.drop s.length := by
  obtain ⟨r, hr⟩ := Option.isSome_iff_exists.mp h
  rw [Text.after?_eq_some_iff] at hr
  rw [hr, List.drop_left]

/-- The forms of a lexeme: the text begins with the opener of a token, which is not escaped. -/
theorem lexeme?_eq_some {l : Lexeme} (h : x.lexeme? odd t = some l) :
    odd = false ∧
    ((∃ cls, x.token? t = some (.lineComment cls) ∧ l = .unclosed (.comment cls t) .code) ∨
    (∃ cls opener body, x.token? t = some (.blockComment cls opener) ∧
      opener ∈ x.delimiters ∧ t = opener ++ body ∧ l = x.blockRest cls opener body) ∨
    (∃ d ∈ x.literals, ∃ body, x.token? t = some (.literal d) ∧ t = d.opener ++ body ∧
      l = literalRest d (if d.multiline then .literal d else .code)
        (Escape.oddAfter false d.opener) d.opener body)) := by
  rw [lexeme?] at h
  cases odd with
  | true => cases h
  | false =>
    refine ⟨rfl, ?_⟩
    rw [if_neg Bool.false_ne_true] at h
    cases ht : x.token? t with
    | none => rw [ht] at h; cases h
    | some tok =>
      rw [ht] at h
      rcases token?_eq_some ht with ⟨⟨cls, rfl⟩, -⟩ | ⟨cls, opener, closer, rfl, hb, hs⟩ |
        ⟨d, hd, rfl, hs⟩
      · exact .inl ⟨cls, rfl, (Option.some.inj h).symm⟩
      · exact .inr (.inl ⟨cls, opener, _, rfl, blockOpener_mem hb, drop_of_startsWith hs,
          (Option.some.inj h).symm⟩)
      · exact .inr (.inr ⟨d, hd, _, rfl, drop_of_startsWith hs, (Option.some.inj h).symm⟩)

theorem lexeme?_eq_none_iff : x.lexeme? odd t = none ↔ odd = true ∨ x.token? t = none := by
  rw [lexeme?]
  cases odd with
  | true => simp
  | false =>
    simp only [Bool.false_eq_true, if_false, false_or]
    cases x.token? t with
    | none => simp
    | some tok => cases tok <;> simp

theorem lexeme?_of_lineComment {cls : CommentClass} (h : x.token? t = some (.lineComment cls)) :
    x.lexeme? false t = some (.unclosed (.comment cls t) .code) := by
  simp only [lexeme?, h, Bool.false_eq_true, if_false]

theorem lexeme?_of_block {cls : CommentClass} {opener body : Text}
    (h : x.token? (opener ++ body) = some (.blockComment cls opener)) :
    x.lexeme? false (opener ++ body) = some (x.blockRest cls opener body) := by
  simp only [lexeme?, h, Bool.false_eq_true, if_false, List.drop_left]

theorem lexeme?_of_literal {d : Delimiter} {body : Text}
    (h : x.token? (d.opener ++ body) = some (.literal d)) :
    x.lexeme? false (d.opener ++ body) =
      some (literalRest d (if d.multiline then .literal d else .code)
        (Escape.oddAfter false d.opener) d.opener body) := by
  simp only [lexeme?, h, Bool.false_eq_true, if_false, List.drop_left]

theorem blockRest_text (x : Lexicon) (cls : CommentClass) (head t : Text) :
    (x.blockRest cls head t).text = head ++ t := by
  rw [blockRest]
  split
  · rename_i body rest h
    rw [Lexeme.text, ← Text.cut?_append h]
    simp [Piece.text]
  · rfl

theorem literalRest_text (d : Delimiter) (k : Carry) (odd : Bool) (head t : Text) :
    (literalRest d k odd head t).text = head ++ t := by
  rw [literalRest]
  split
  · rename_i body rest h
    rw [Lexeme.text, ← Escape.closing?_append h]
    simp [Piece.text]
  · rfl

/-- Nothing is lost. -/
theorem lexeme?_text {l : Lexeme} (h : x.lexeme? odd t = some l) : l.text = t := by
  obtain ⟨-, ⟨cls, -, rfl⟩ | ⟨cls, opener, body, -, -, rfl, rfl⟩ | ⟨d, -, body, -, rfl, rfl⟩⟩ :=
    lexeme?_eq_some h
  · rfl
  · exact blockRest_text ..
  · exact literalRest_text ..

theorem resume?_text {l : Lexeme} (h : x.resume? k t = some l) : l.text = t := by
  cases k with
  | code => cases h
  | block cls => rw [← Option.some.inj h]; exact blockRest_text x cls [] t
  | literal d => rw [← Option.some.inj h]; exact literalRest_text d _ false [] t

theorem blockRest_eq_closed {cls : CommentClass} {head body : Text}
    (h : x.blockRest cls head body = .closed p r) :
    ∃ inner, p = .comment cls (head ++ inner ++ x.blockCloser) ∧
      Text.cut? x.blockCloser body = some (inner, r) := by
  rw [blockRest] at h
  split at h
  · rename_i inner rest hc
    obtain ⟨rfl, rfl⟩ := Lexeme.closed.inj h
    exact ⟨inner, rfl, hc⟩
  · cases h

theorem literalRest_eq_closed {d : Delimiter} {head body : Text}
    (h : literalRest d k odd head body = .closed p r) :
    ∃ inner, p = .literal (head ++ inner ++ d.closer) ∧
      d.escape.closing? d.closer 0 odd body = some (inner, r) := by
  rw [literalRest] at h
  split at h
  · rename_i inner rest hc
    obtain ⟨rfl, rfl⟩ := Lexeme.closed.inj h
    exact ⟨inner, rfl, hc⟩
  · cases h

/-- Text `r'` may stand in the place of `r`: behind no text does a token come about, and a token
that is closed before stays as it is. -/
structure Allows (x : Lexicon) (r r' : Text) : Prop where
  clear : ∀ c s, x.token? (c :: (s ++ r)) = none → x.token? (c :: (s ++ r')) = none
  block : ∀ s cls opener, x.token? (s ++ r) = some (.blockComment cls opener) →
    opener.length + x.blockCloser.length ≤ s.length →
      x.token? (s ++ r') = some (.blockComment cls opener)
  literal : ∀ s d, x.token? (s ++ r) = some (.literal d) →
    d.opener.length + d.closer.length ≤ s.length → x.token? (s ++ r') = some (.literal d)
  doubled : ∀ d ∈ x.literals, d.escape = .doubled →
    r.startsWith d.closer = false → r'.startsWith d.closer = false

theorem blockRest_congr {cls : CommentClass} {head body : Text}
    (h : x.blockRest cls head body = .closed p r) (r' : Text) :
    ∃ inner, p.text = head ++ (inner ++ x.blockCloser) ∧
      x.blockRest cls head (inner ++ x.blockCloser ++ r') = .closed p r' := by
  obtain ⟨inner, rfl, hc⟩ := blockRest_eq_closed h
  refine ⟨inner, List.append_assoc .., ?_⟩
  rw [blockRest, Text.cut?_congr hc r']

theorem literalRest_congr {d : Delimiter} {head body : Text} (hd : d.closer ≠ [])
    (h : literalRest d k odd head body = .closed p r)
    (hr : d.escape = .doubled → r'.startsWith d.closer = false) :
    ∃ inner, p.text = head ++ (inner ++ d.closer) ∧
      literalRest d k odd head (inner ++ d.closer ++ r') = .closed p r' := by
  obtain ⟨inner, rfl, hc⟩ := literalRest_eq_closed h
  refine ⟨inner, List.append_assoc .., ?_⟩
  rw [literalRest, Escape.closing?_congr hd hc hr]

/-- A doubled closer is never followed by itself. -/
theorem literalRest_startsWith {d : Delimiter} {head body : Text} (hd : d.closer ≠ [])
    (h : literalRest d k odd head body = .closed p r) (he : d.escape = .doubled) :
    r.startsWith d.closer = false := by
  obtain ⟨inner, rfl, hc⟩ := literalRest_eq_closed h
  exact Escape.startsWith_of_closing? hd he hc

/-- A closed comment or literal is not touched by a change behind it. -/
theorem Allows.lexeme? (hx : x.Regular) (ha : x.Allows r r')
    (h : x.lexeme? odd (p.text ++ r) = some (.closed p r)) :
    x.lexeme? odd (p.text ++ r') = some (.closed p r') := by
  obtain ⟨rfl, ⟨cls, -, hl⟩ | ⟨cls, opener, body, ht, -, htext, hl⟩ |
    ⟨d, hd, body, ht, htext, hl⟩⟩ := lexeme?_eq_some h
  · cases hl
  · obtain ⟨inner, hp, hr'⟩ := blockRest_congr hl.symm r'
    have hlen : opener.length + x.blockCloser.length ≤ p.text.length := by
      rw [hp]
      simp only [List.length_append]
      omega
    have ht' := ha.block p.text cls opener ht hlen
    rw [hp, List.append_assoc] at ht' ⊢
    rw [lexeme?_of_block ht', hr']
  · have hclo := (hx _ (closer_mem hd)).1
    have hdbl := fun he => ha.doubled d hd he (literalRest_startsWith hclo hl.symm he)
    obtain ⟨inner, hp, hr'⟩ := literalRest_congr hclo hl.symm hdbl
    have hlen : d.opener.length + d.closer.length ≤ p.text.length := by
      rw [hp]
      simp only [List.length_append]
      omega
    have ht' := ha.literal p.text d ht hlen
    rw [hp, List.append_assoc] at ht' ⊢
    rw [lexeme?_of_literal ht', hr']

theorem Allows.resume? (hx : x.Regular) (hk : k.Fits x) (ha : x.Allows r r')
    (h : x.resume? k (p.text ++ r) = some (.closed p r)) :
    x.resume? k (p.text ++ r') = some (.closed p r') := by
  cases k with
  | code => cases h
  | block cls =>
    obtain ⟨inner, hp, hr'⟩ := blockRest_congr (Option.some.inj h) r'
    rw [List.nil_append] at hp
    rw [hp]
    exact congrArg some hr'
  | literal d =>
    have hl := Option.some.inj h
    have hclo := (hx _ (closer_mem hk.1)).1
    have hdbl := fun he => ha.doubled d hk.1 he (literalRest_startsWith hclo hl he)
    obtain ⟨inner, hp, hr'⟩ := literalRest_congr hclo hl hdbl
    rw [List.nil_append] at hp
    rw [hp]
    exact congrArg some hr'

/-- A comment or literal that is closed: its text ends in a closer. -/
inductive Sealed (x : Lexicon) : Piece → Prop
  | comment (cls : CommentClass) (head : Text) : Sealed x (.comment cls (head ++ x.blockCloser))
  | literal (d : Delimiter) (hd : d ∈ x.literals) (head : Text) :
      Sealed x (.literal (head ++ d.closer))

theorem sealed_of_lexeme? (h : x.lexeme? odd t = some (.closed p r)) : x.Sealed p := by
  obtain ⟨-, ⟨cls, -, hl⟩ | ⟨cls, opener, body, -, -, -, hl⟩ | ⟨d, hd, body, -, -, hl⟩⟩ :=
    lexeme?_eq_some h
  · cases hl
  · obtain ⟨inner, rfl, -⟩ := blockRest_eq_closed hl.symm
    exact .comment cls (opener ++ inner)
  · obtain ⟨inner, rfl, -⟩ := literalRest_eq_closed hl.symm
    exact .literal d hd (d.opener ++ inner)

theorem sealed_of_resume? (hk : k.Fits x) (h : x.resume? k t = some (.closed p r)) :
    x.Sealed p := by
  cases k with
  | code => cases h
  | block cls =>
    obtain ⟨inner, rfl, -⟩ := blockRest_eq_closed (Option.some.inj h)
    exact .comment cls inner
  | literal d =>
    obtain ⟨inner, rfl, -⟩ := literalRest_eq_closed (Option.some.inj h)
    exact .literal d hk.1 inner

theorem Sealed.not_code (h : x.Sealed p) : p.isCode = false := by
  cases h <;> rfl

theorem Sealed.closer (hx : x.Unbroken) (h : x.Sealed p) :
    ∃ head closer, p.text = head ++ closer ∧ closer ≠ [] ∧ ∀ c ∈ closer, isBlank c = false := by
  cases h with
  | comment cls head =>
    exact ⟨head, x.blockCloser, rfl, hx.blockCloser⟩
  | literal d hd head =>
    exact ⟨head, d.closer, rfl, hx _ (closer_mem hd)⟩

theorem Sealed.text_ne_nil (hx : x.Filled) (h : x.Sealed p) : p.text ≠ [] := by
  cases h with
  | comment cls head => simp [Piece.text, hx.blockCloser]
  | literal d hd head => simp [Piece.text, hx _ (closer_mem hd)]

theorem Sealed.isBlank_text (hx : x.Unbroken) (h : x.Sealed p) : p.text.isBlank = false := by
  obtain ⟨head, closer, he, hne, hc⟩ := h.closer hx
  obtain ⟨c, cs, rfl⟩ := List.exists_cons_of_ne_nil hne
  simp [he, hc c List.mem_cons_self]

theorem Sealed.isBlank_wording (hx : x.Unbroken) (h : x.Sealed p) (ps : List Piece) :
    (Piece.wording (p :: ps)).isBlank = false := by
  rw [Piece.wording_cons, Text.isBlank_append, h.isBlank_text hx, Bool.false_and]

theorem Sealed.trimEnd_text (hx : x.Unbroken) (h : x.Sealed p) : p.text.trimEnd = p.text := by
  obtain ⟨head, closer, he, hne, hc⟩ := h.closer hx
  refine Text.trimEnd_eq_self_of_getLast? fun c hl => hc c ?_
  rw [he, List.getLast?_append_of_ne_nil _ hne] at hl
  exact List.mem_of_getLast? hl

/-- The forms of a comment or literal that is open to the end of its line. -/
theorem lexeme?_eq_unclosed (h : x.lexeme? odd t = some (.unclosed p k)) :
    odd = false ∧
    ((∃ cls, x.token? t = some (.lineComment cls) ∧ p = .comment cls t ∧ k = .code) ∨
    (∃ cls opener body, x.token? t = some (.blockComment cls opener) ∧ opener ∈ x.delimiters ∧
      t = opener ++ body ∧ Text.cut? x.blockCloser body = none ∧
      p = .comment cls t ∧ k = .block cls) ∨
    (∃ d ∈ x.literals, ∃ body, x.token? t = some (.literal d) ∧ t = d.opener ++ body ∧
      d.escape.closing? d.closer 0 (Escape.oddAfter false d.opener) body = none ∧
      p = .literal t ∧ k = if d.multiline then .literal d else .code)) := by
  obtain ⟨ho, ⟨cls, ht, hl⟩ | ⟨cls, opener, body, ht, hm, htext, hl⟩ |
    ⟨d, hd, body, ht, htext, hl⟩⟩ := lexeme?_eq_some h
  · obtain ⟨rfl, rfl⟩ := Lexeme.unclosed.inj hl
    exact ⟨ho, .inl ⟨cls, ht, rfl, rfl⟩⟩
  · rw [blockRest] at hl
    split at hl
    · cases hl
    · rename_i hc
      obtain ⟨rfl, rfl⟩ := Lexeme.unclosed.inj hl
      exact ⟨ho, .inr (.inl ⟨cls, opener, body, ht, hm, htext, hc, by rw [htext], rfl⟩)⟩
  · rw [literalRest] at hl
    split at hl
    · cases hl
    · rename_i hc
      obtain ⟨rfl, rfl⟩ := Lexeme.unclosed.inj hl
      exact ⟨ho, .inr (.inr ⟨d, hd, body, ht, htext, hc, by rw [htext], rfl⟩)⟩

theorem not_code_of_unclosed (h : x.lexeme? odd t = some (.unclosed p k)) : p.isCode = false := by
  obtain ⟨-, ⟨cls, -, rfl, -⟩ | ⟨cls, opener, body, -, -, -, -, rfl, -⟩ |
    ⟨d, -, body, -, -, -, rfl, -⟩⟩ := lexeme?_eq_unclosed h <;> rfl

theorem fits_of_unclosed (h : x.lexeme? odd t = some (.unclosed p k)) : k.Fits x := by
  obtain ⟨-, ⟨cls, -, -, rfl⟩ | ⟨cls, opener, body, -, -, -, -, -, rfl⟩ |
    ⟨d, hd, body, -, -, -, -, rfl⟩⟩ := lexeme?_eq_unclosed h
  · trivial
  · trivial
  · split
    · rename_i hm
      exact ⟨hd, hm⟩
    · trivial

theorem token?_of_unclosed (h : x.lexeme? odd t = some (.unclosed p k)) :
    ∃ tok, x.token? t = some tok := by
  obtain ⟨-, ⟨cls, ht, -⟩ | ⟨cls, opener, body, ht, -⟩ | ⟨d, -, body, ht, -⟩⟩ :=
    lexeme?_eq_unclosed h <;> exact ⟨_, ht⟩

/-- What is open to the end of a line begins with a delimiter. -/
theorem isBlank_of_unclosed (hx : x.Unbroken) (h : x.lexeme? odd t = some (.unclosed p k)) :
    t.isBlank = false := by
  obtain ⟨tok, ht⟩ := token?_of_unclosed h
  obtain ⟨s, hs, hm⟩ := token?_delimiter ht
  cases t with
  | nil => rw [hx.filled.token?_nil] at ht; cases ht
  | cons c cs => rw [Text.isBlank_cons, hx.startsWith hs hm, Bool.false_and]

theorem isBlank_wording_of_unclosed (hx : x.Unbroken)
    (h : x.lexeme? odd p.text = some (.unclosed p k)) : (Piece.wording [p]).isBlank = false := by
  rw [Piece.wording_cons, Text.isBlank_append, isBlank_of_unclosed hx h, Bool.false_and]

/-- Literals that end with their line know no doubled closers. -/
def Simple (x : Lexicon) : Prop := ∀ d ∈ x.literals, d.multiline = false → d.escape ≠ .doubled

instance (x : Lexicon) : Decidable x.Simple := inferInstanceAs (Decidable (∀ _ ∈ _, _ → _))

theorem trimEnd_delimiter_append (hx : x.Regular) {s : Text} (hs : s ∈ x.delimiters) (body : Text) :
    Text.trimEnd (s ++ body) = s ++ body.trimEnd := by
  have := hx.after?_trimEnd hs (s ++ body)
  rw [Text.after?_self_append, Option.map_some, Text.after?_eq_some_iff] at this
  exact this

/-- Blanks at the end of a line do not keep a comment or a literal open. -/
theorem lexeme?_trimEnd (hx : x.Regular) (hs : x.Simple)
    (h : x.lexeme? odd t = some (.unclosed p k)) (hk : k.inLiteral = false) :
    x.lexeme? odd t.trimEnd = some (.unclosed (p.withText t.trimEnd) k) := by
  obtain ⟨rfl, ⟨cls, ht, rfl, rfl⟩ | ⟨cls, opener, body, ht, hm, htext, hc, rfl, rfl⟩ |
    ⟨d, hd, body, ht, htext, hc, rfl, rfl⟩⟩ := lexeme?_eq_unclosed h
  · exact lexeme?_of_lineComment ((hx.token?_trimEnd t).trans ht)
  · have htrim := trimEnd_delimiter_append hx hm body
    rw [← hx.token?_trimEnd, htext, htrim] at ht
    obtain ⟨b, -, hb⟩ := Text.exists_trimEnd_append body
    have hnone := Text.cut?_eq_none_of_append hx.blockCloser.1 (hb.symm ▸ hc)
    rw [htext, htrim, lexeme?_of_block ht, blockRest, hnone]
    rfl
  · have hsingle : d.multiline = false := by
      cases hml : d.multiline with
      | false => rfl
      | true => rw [hml] at hk; cases hk
    have htrim := trimEnd_delimiter_append hx (opener_mem hd) body
    rw [← hx.token?_trimEnd, htext, htrim] at ht
    obtain ⟨b, -, hb⟩ := Text.exists_trimEnd_append body
    have hclo := hx _ (closer_mem hd)
    have hnone := Escape.closing?_eq_none_of_append (hs d hd hsingle) hclo.1
      (fun c hc => (hclo.2 c hc).2) (hb.symm ▸ hc)
    rw [htext, htrim, lexeme?_of_literal ht, literalRest, hnone]
    rfl

theorem resume?_block_trimEnd (hx : x.Regular) {cls : CommentClass}
    (h : x.resume? (.block cls) t = some (.unclosed p k)) :
    x.resume? (.block cls) t.trimEnd = some (.unclosed (p.withText t.trimEnd) k) := by
  have h := Option.some.inj h
  rw [blockRest] at h
  split at h
  · cases h
  · rename_i hc
    obtain ⟨rfl, rfl⟩ := Lexeme.unclosed.inj h
    obtain ⟨b, -, hb⟩ := Text.exists_trimEnd_append t
    have hnone := Text.cut?_eq_none_of_append hx.blockCloser.1 (hb.symm ▸ hc)
    rw [resume?, blockRest, hnone]
    rfl

end Lexicon

end CleanCopy
