import CleanCopy.Proofs.Lex.Lexeme
import Mathlib.Data.List.Chain

namespace CleanCopy

namespace Piece

/-- Puts a piece in front of others; code grows into code. -/
def merge : Piece → List Piece → List Piece
  | code [], ps => ps
  | code (c :: t), code u :: ps => code (c :: t ++ u) :: ps
  | p, ps => p :: ps

/-- Pieces as a scan reports them: no empty code, and no code beside code. -/
def merged (ps : List Piece) : List Piece := ps.foldr merge []

variable {p : Piece} {ps : List Piece} {t : Text}

@[simp] theorem merged_nil : merged [] = [] := rfl

@[simp] theorem merged_cons (p : Piece) (ps : List Piece) : merged (p :: ps) = merge p (merged ps) :=
  rfl

@[simp] theorem merge_code_nil (ps : List Piece) : merge (code []) ps = ps := rfl

theorem merge_of_not_code (h : p.isCode = false) (ps : List Piece) : merge p ps = p :: ps := by
  cases p with
  | code t => cases h
  | literal t => rfl
  | comment cls t => rfl

theorem merge_code_cons (c : Char) (t : Text) (ps : List Piece) :
    merge (code (c :: t)) ps = merge (code [c]) (merge (code t) ps) := by
  cases t with
  | nil => rfl
  | cons d t =>
    cases ps with
    | nil => rfl
    | cons q qs => cases q <;> rfl

theorem merge_code_append (s t : Text) (ps : List Piece) :
    merge (code (s ++ t)) ps = merge (code s) (merge (code t) ps) := by
  induction s with
  | nil => rfl
  | cons c s ih => rw [List.cons_append, merge_code_cons, ih, ← merge_code_cons]

theorem merged_merge (p : Piece) (ps : List Piece) : merged (merge p ps) = merge p (merged ps) := by
  cases p with
  | code t =>
    cases t with
    | nil => rfl
    | cons c t =>
      cases ps with
      | nil => rfl
      | cons q qs =>
        cases q with
        | code u => rw [merged_cons, ← merge_code_append]; rfl
        | literal u => rfl
        | comment cls u => rfl
  | literal t => rfl
  | comment cls t => rfl

theorem wording_merge (p : Piece) (ps : List Piece) : wording (merge p ps) = p.text ++ wording ps := by
  cases p with
  | code t =>
    cases t with
    | nil => rfl
    | cons c t =>
      cases ps with
      | nil => rfl
      | cons q qs => cases q <;> simp [merge, Piece.text]
  | literal t => rfl
  | comment cls t => rfl

theorem wording_merged (ps : List Piece) : wording (merged ps) = wording ps := by
  induction ps with
  | nil => rfl
  | cons p ps ih => rw [merged_cons, wording_merge, ih, ← wording_cons]

/-- No code beside code. -/
def Spread (ps : List Piece) : Prop := ps.IsChain fun p q => p.isCode = true → q.isCode = false

/-- No empty code, and no code beside code. -/
def Apart (ps : List Piece) : Prop := Spread ps ∧ code [] ∉ ps

theorem spread_cons : Spread (p :: ps) ↔
    (∀ q, ps.head? = some q → p.isCode = true → q.isCode = false) ∧ Spread ps :=
  List.isChain_cons

theorem apart_cons : Apart (p :: ps) ↔
    (∀ q, ps.head? = some q → p.isCode = true → q.isCode = false) ∧ p ≠ code [] ∧ Apart ps := by
  simp only [Apart, spread_cons, List.mem_cons, not_or, ne_comm (a := p)]
  tauto

theorem Apart.merge (h : Apart ps) (p : Piece) : Apart (merge p ps) := by
  match p, ps with
  | code [], ps => exact h
  | code (c :: t), [] => exact apart_cons.mpr ⟨fun _ h => (by cases h), by simp, h⟩
  | code (c :: t), code u :: qs =>
    obtain ⟨hhead, -, hqs⟩ := apart_cons.mp h
    exact apart_cons.mpr ⟨fun q hq _ => hhead q hq rfl, by simp, hqs⟩
  | code (c :: t), literal u :: qs =>
    exact apart_cons.mpr ⟨fun q hq _ => by cases hq; rfl, by simp, h⟩
  | code (c :: t), comment cls u :: qs =>
    exact apart_cons.mpr ⟨fun q hq _ => by cases hq; rfl, by simp, h⟩
  | literal t, ps => exact apart_cons.mpr ⟨fun _ _ h => (by cases h), by simp, h⟩
  | comment cls t, ps => exact apart_cons.mpr ⟨fun _ _ h => (by cases h), by simp, h⟩

theorem apart_merged (ps : List Piece) : Apart (merged ps) := by
  induction ps with
  | nil => exact ⟨.nil, List.not_mem_nil⟩
  | cons p ps ih => exact ih.merge p

/-- Where no code is beside code, joining only drops what is empty. -/
theorem merged_of_spread (h : Spread ps) : merged ps = ps.filter (· ≠ code []) := by
  induction ps with
  | nil => rfl
  | cons p ps ih =>
    obtain ⟨hhead, hps⟩ := spread_cons.mp h
    rw [merged_cons, ih hps]
    match p, ps with
    | code [], ps => rfl
    | code (c :: t), [] => rfl
    | code (c :: t), code u :: qs => cases hhead _ rfl rfl
    | code (c :: t), literal u :: qs => rfl
    | code (c :: t), comment cls u :: qs => rfl
    | literal t, ps => rfl
    | comment cls t, ps => rfl

/-- Joining leaves pieces that are reported by a scan, and no others, as they are. -/
theorem merged_eq_self_iff : merged ps = ps ↔ Apart ps := by
  refine ⟨fun h => h ▸ apart_merged ps, fun h => ?_⟩
  rw [merged_of_spread h.1, List.filter_eq_self]
  intro p hp
  simp only [decide_eq_true_eq, ne_eq]
  exact fun he => h.2 (he ▸ hp)

end Piece

namespace Lexicon

open Piece

/-- No token begins within a text that stands before `rest`. -/
def Passes (x : Lexicon) (rest : Text) : Bool → Text → Prop
  | _, [] => True
  | odd, c :: cs => x.lexeme? odd (c :: (cs ++ rest)) = none ∧ x.Passes rest (c == '\\' && !odd) cs

/-- Pieces that are read one after the other in a text that starts with code. -/
inductive Reads (x : Lexicon) : Bool → List Piece → Carry → Prop
  | done (odd : Bool) : Reads x odd [] .code
  | code {odd : Bool} {t : Text} {ps : List Piece} {k : Carry} (free : x.Passes (wording ps) odd t)
      (later : Reads x (Escape.oddAfter odd t) ps k) : Reads x odd (.code t :: ps) k
  | closed {odd : Bool} {p : Piece} {ps : List Piece} {k : Carry}
      (first : x.lexeme? odd (p.text ++ wording ps) = some (.closed p (wording ps)))
      (later : Reads x (Escape.oddAfter odd p.text) ps k) : Reads x odd (p :: ps) k
  | unclosed {odd : Bool} {p : Piece} {k : Carry}
      (last : x.lexeme? odd p.text = some (.unclosed p k)) : Reads x odd [p] k

/-- The pieces of a line that begins with what another one left open. -/
inductive Begins (x : Lexicon) : Carry → List Piece → Carry → Prop
  | code {ps : List Piece} {k : Carry} (h : x.Reads false ps k) : Begins x .code ps k
  | closed {k k' : Carry} {p : Piece} {ps : List Piece} (fits : k.Fits x)
      (first : x.resume? k (p.text ++ wording ps) = some (.closed p (wording ps)))
      (later : x.Reads (Escape.oddAfter false p.text) ps k') : Begins x k (p :: ps) k'
  | unclosed {k : Carry} {p : Piece} (fits : k.Fits x)
      (last : x.resume? k p.text = some (.unclosed p k)) : Begins x k [p] k

variable {x : Lexicon} {odd : Bool} {t : Text} {rest : Text} {p : Piece} {ps : List Piece}
  {k k' : Carry}

theorem scanCode_of_none {c : Char} {cs : Text} (h : x.lexeme? odd (c :: cs) = none) :
    x.scanCode odd (c :: cs) =
      ⟨merge (.code [c]) (x.scanCode (c == '\\' && !odd) cs).pieces,
        (x.scanCode (c == '\\' && !odd) cs).after⟩ := by
  rw [scanCode, h]
  simp only [Scanned.consCode]
  cases (x.scanCode (c == '\\' && !odd) cs).pieces with
  | nil => rfl
  | cons q qs => cases q <;> rfl

theorem scanCode_of_unclosed (hx : x.Filled) (h : x.lexeme? odd t = some (.unclosed p k)) :
    x.scanCode odd t = ⟨[p], k⟩ := by
  cases t with
  | nil =>
    obtain ⟨tok, ht⟩ := token?_of_unclosed h
    rw [hx.token?_nil] at ht
    cases ht
  | cons c cs => rw [scanCode, h]

theorem scanCode_of_closed (hx : x.Filled)
    (h : x.lexeme? odd (p.text ++ rest) = some (.closed p rest)) :
    x.scanCode odd (p.text ++ rest) =
      (x.scanCode (Escape.oddAfter odd p.text) rest).cons p := by
  have hne := (sealed_of_lexeme? h).text_ne_nil hx
  cases hp : p.text with
  | nil => exact absurd hp hne
  | cons c cs =>
    rw [hp, List.cons_append] at h
    have hlen : rest.length < (cs ++ rest).length + 1 := by
      rw [List.length_append]
      omega
    rw [List.cons_append, scanCode, h]
    simp only [hlen, if_true, hp]

theorem scanCode_of_passes (h : x.Passes rest odd t) :
    x.scanCode odd (t ++ rest) =
      ⟨merge (.code t) (x.scanCode (Escape.oddAfter odd t) rest).pieces,
        (x.scanCode (Escape.oddAfter odd t) rest).after⟩ := by
  induction t generalizing odd with
  | nil => rfl
  | cons c cs ih =>
    rw [List.cons_append, scanCode_of_none h.1, ih h.2, merge_code_cons c cs]
    rfl

/-- Pieces that can be read are found by a scan. -/
theorem Reads.scanCode_eq (hx : x.Filled) (h : x.Reads odd ps k) :
    x.scanCode odd (wording ps) = ⟨merged ps, k⟩ := by
  induction h with
  | done odd => rw [wording_nil, scanCode]; rfl
  | code free later ih =>
    rw [wording_cons, merged_cons]
    exact (scanCode_of_passes free).trans (by rw [ih])
  | closed first later ih =>
    rw [wording_cons, merged_cons, merge_of_not_code (sealed_of_lexeme? first).not_code,
      scanCode_of_closed hx first, ih]
    rfl
  | unclosed last =>
    rw [wording_cons, wording_nil, List.append_nil, merged_cons,
      merge_of_not_code (not_code_of_unclosed last), scanCode_of_unclosed hx last]
    rfl

theorem reads_code_iff :
    x.Reads odd (.code t :: ps) k ↔
      x.Passes (wording ps) odd t ∧ x.Reads (Escape.oddAfter odd t) ps k := by
  constructor
  · intro h
    cases h with
    | code free later => exact ⟨free, later⟩
    | closed first _ => exact absurd (sealed_of_lexeme? first).not_code (by simp [isCode])
    | unclosed last => exact absurd (not_code_of_unclosed last) (by simp [isCode])
  · exact fun h => .code h.1 h.2

theorem Reads.merge_char {c : Char} (hc : x.lexeme? odd (c :: wording ps) = none)
    (h : x.Reads (c == '\\' && !odd) ps k) : x.Reads odd (merge (.code [c]) ps) k := by
  cases ps with
  | nil => exact .code ⟨hc, trivial⟩ h
  | cons q qs =>
    cases q with
    | code u =>
      obtain ⟨free, later⟩ := reads_code_iff.mp h
      exact .code ⟨hc, free⟩ later
    | literal u => exact .code ⟨hc, trivial⟩ h
    | comment cls u => exact .code ⟨hc, trivial⟩ h

/-- A scan finds pieces that can be read. -/
theorem reads_scanCode (hx : x.Filled) (odd : Bool) (t : Text) :
    x.Reads odd (x.scanCode odd t).pieces (x.scanCode odd t).after ∧
      wording (x.scanCode odd t).pieces = t ∧
        merged (x.scanCode odd t).pieces = (x.scanCode odd t).pieces := by
  -- By the length of the text, since a literal or comment takes many characters at once.
  induction hn : t.length using Nat.strong_induction_on generalizing odd t with
  | _ n ih =>
    subst hn
    cases t with
    | nil => rw [scanCode]; exact ⟨.done odd, rfl, rfl⟩
    | cons c cs =>
      cases h : x.lexeme? odd (c :: cs) with
      | none =>
        rw [scanCode_of_none h]
        obtain ⟨hr, hw, hm⟩ := ih _ (by simp) (c == '\\' && !odd) cs rfl
        set s := x.scanCode (c == '\\' && !odd) cs
        refine ⟨?_, by rw [wording_merge, hw]; rfl, ?_⟩
        · exact Reads.merge_char (hw.symm ▸ h) hr
        · rw [merged_merge, hm]
      | some l =>
        cases l with
        | unclosed p k =>
          rw [scanCode_of_unclosed hx h]
          have htext : p.text = c :: cs := lexeme?_text h
          refine ⟨.unclosed (htext ▸ h), by simp [htext], ?_⟩
          rw [merged_cons, merge_of_not_code (not_code_of_unclosed h)]
          rfl
        | closed p r =>
          have htext : p.text ++ r = c :: cs := lexeme?_text h
          have hlen : r.length < (c :: cs).length := by
            have := (sealed_of_lexeme? h).text_ne_nil hx
            have := List.length_pos_iff.mpr this
            rw [← htext, List.length_append]
            omega
          obtain ⟨hr, hw, hm⟩ := ih _ hlen (Escape.oddAfter odd p.text) r rfl
          rw [← htext] at h ⊢
          rw [scanCode_of_closed hx h]
          refine ⟨.closed ?_ hr, by simp [Scanned.cons, hw], ?_⟩
          · rw [hw]
            exact h
          · simp only [Scanned.cons, merged_cons, hm]
            exact merge_of_not_code (sealed_of_lexeme? h).not_code _

theorem Reads.fits (h : x.Reads odd ps k) : k.Fits x := by
  induction h with
  | done => trivial
  | code _ _ ih => exact ih
  | closed _ _ ih => exact ih
  | unclosed last => exact fits_of_unclosed last

/-- A line that closes nothing goes on with what was open, and is all of it. -/
theorem resume?_eq_unclosed (h : x.resume? k t = some (.unclosed p k')) :
    k' = k ∧ ((∃ cls, k = .block cls ∧ p = .comment cls t) ∨ ∃ d, k = .literal d ∧ p = .literal t) := by
  cases k with
  | code => cases h
  | block cls =>
    have h := Option.some.inj h
    rw [blockRest] at h
    split at h
    · cases h
    · obtain ⟨hp, hk⟩ := Lexeme.unclosed.inj h
      exact ⟨hk.symm, .inl ⟨cls, rfl, hp.symm⟩⟩
  | literal d =>
    have h := Option.some.inj h
    rw [literalRest] at h
    split at h
    · cases h
    · obtain ⟨hp, hk⟩ := Lexeme.unclosed.inj h
      exact ⟨hk.symm, .inr ⟨d, rfl, hp.symm⟩⟩

theorem not_code_of_resume? (h : x.resume? k t = some (.unclosed p k')) : p.isCode = false := by
  obtain ⟨-, ⟨cls, -, rfl⟩ | ⟨d, -, rfl⟩⟩ := resume?_eq_unclosed h
  · rfl
  · rfl

theorem Begins.fits (h : x.Begins k ps k') : k'.Fits x := by
  cases h with
  | code h => exact h.fits
  | closed _ _ later => exact later.fits
  | unclosed fits _ => exact fits

theorem Begins.fits_before (h : x.Begins k ps k') : k.Fits x := by
  cases h with
  | code _ => trivial
  | closed fits _ _ => exact fits
  | unclosed fits _ => exact fits

/-- Pieces that can be read are found by a scan. -/
theorem Begins.scan_eq (hx : x.Filled) (h : x.Begins k ps k') :
    x.scan k (wording ps) = ⟨merged ps, k'⟩ := by
  cases h with
  | code h => exact h.scanCode_eq hx
  | closed fits first later =>
    rw [wording_cons, scan, first]
    simp only [later.scanCode_eq hx, Scanned.cons, merged_cons]
    rw [merge_of_not_code (sealed_of_resume? fits first).not_code]
  | unclosed fits last =>
    rw [wording_cons, wording_nil, List.append_nil, scan, last, merged_cons,
      merge_of_not_code (not_code_of_resume? last)]
    rfl

/-- A scan finds pieces that can be read. -/
theorem begins_scan (hx : x.Filled) (hk : k.Fits x) (t : Text) :
    x.Begins k (x.scan k t).pieces (x.scan k t).after ∧ wording (x.scan k t).pieces = t ∧
      merged (x.scan k t).pieces = (x.scan k t).pieces := by
  rw [scan]
  cases h : x.resume? k t with
  | none =>
    have hcode : k = .code := by
      cases k with
      | code => rfl
      | block cls => cases h
      | literal d => cases h
    obtain ⟨hr, hw, hm⟩ := reads_scanCode hx false t
    exact ⟨hcode ▸ .code hr, hw, hm⟩
  | some l =>
    have htext := resume?_text h
    cases l with
    | unclosed p k' =>
      obtain rfl := (resume?_eq_unclosed h).1
      have htext : p.text = t := htext
      refine ⟨.unclosed hk (htext ▸ h), by simp [htext], ?_⟩
      rw [merged_cons, merge_of_not_code (not_code_of_resume? h)]
      rfl
    | closed p r =>
      have htext : p.text ++ r = t := htext
      obtain ⟨hr, hw, hm⟩ := reads_scanCode hx (Escape.oddAfter false p.text) r
      refine ⟨.closed hk ?_ hr, by simp [Scanned.cons, hw, htext], ?_⟩
      · rw [hw, htext]
        exact h
      · simp only [Scanned.cons, merged_cons, hm]
        exact merge_of_not_code (sealed_of_resume? hk h).not_code _

end Lexicon

end CleanCopy
