import CleanCopy.Proofs.Lex.Closer
import CleanCopy.Proofs.Scrub.Literals
import CleanCopy.Scrub.Kind
import Mathlib.Data.List.ReduceOption

namespace CleanCopy

open Piece

/-- The same literal, which may span lines. -/
def Delimiter.unbounded (d : Delimiter) : Delimiter := { d with multiline := true }

def Token.unbounded : Token → Token
  | literal d => literal d.unbounded
  | tok => tok

/-- What is open behind a line end: of literals only those of the lexicon. -/
def Carry.stopped (x : Lexicon) : Carry → Carry
  | literal d => if d ∈ x.literals then literal d else code
  | k => k

def Lexeme.stopped (x : Lexicon) : Lexeme → Lexeme
  | closed p rest => closed p rest
  | unclosed p k => unclosed p (k.stopped x)

namespace Lexicon

/-- The lexicon with literals that all may span lines. -/
def unbounded (x : Lexicon) : Lexicon := { x with literals := x.literals.map Delimiter.unbounded }

/-- No literal that ends with its line is also one that spans lines. -/
def Separate (x : Lexicon) : Prop := ∀ d ∈ x.literals, d.multiline = false → d.unbounded ∉ x.literals

instance (x : Lexicon) : Decidable x.Separate :=
  inferInstanceAs (Decidable (∀ d ∈ x.literals, d.multiline = false → d.unbounded ∉ x.literals))

/-- Splits a line into pieces, where backslashes escape line ends too: a literal that is open at an
escaped line end goes on, whether or not it may span lines. -/
def scanOn (x : Lexicon) (k : Carry) (line : Text) : Scanned :=
  let s := x.unbounded.scan k line
  if Escape.oddAfter false line then s else ⟨s.pieces, s.after.stopped x⟩

/-- Scans lines in order, where backslashes escape line ends too. -/
def rowsOn (x : Lexicon) (k : Carry) : List Line → List Row
  | [] => []
  | l :: ls =>
    let s := x.scanOn k l.text
    ⟨l, k, s.pieces, s.after⟩ :: x.rowsOn s.after ls

end Lexicon

namespace Row

/-- The row as it is without escaped line ends. -/
def stopped (x : Lexicon) (r : Row) : Row := { r with after := r.after.stopped x }

/-- A literal goes on behind the row only since the line end is escaped. -/
def GoesOn (x : Lexicon) (r : Row) : Prop := r.after.stopped x ≠ r.after

instance (x : Lexicon) (r : Row) : Decidable (r.GoesOn x) := inferInstanceAs (Decidable (_ ≠ _))

/-- The row ends in a literal, with a backslash. -/
def EndsInBackslash (r : Row) : Prop := ∃ ps t, r.pieces = ps ++ [.literal t] ∧ t.getLast? = some '\\'

/-- What becomes of a row keeps its literals. Only one that is to end with the row, and does not, may
lose the blanks at its end. -/
def Kept (x : Lexicon) (r : Row) : Option Line → Prop
  | none => Piece.literals r.pieces = []
  | some l => l.cr = r.line.cr ∧ ∃ ts, l.text.Holds ts ∧
      if r.after.inLiteral then ts = Piece.literals r.pieces
      else List.Forall₂ x.SameText (Piece.literals r.pieces) ts

end Row

variable {x : Lexicon} {odd : Bool} {t : Text} {k k' : Carry} {p : Piece} {ps : List Piece}
  {d : Delimiter} {ls : List Line} {r : Row} {pre post : List Row} {cls : CommentClass}

theorem Carry.stopped_eq_or (x : Lexicon) (k : Carry) : k.stopped x = k ∨ k.stopped x = .code := by
  cases k with
  | code | block cls => exact .inl rfl
  | literal d =>
    rw [stopped]
    split
    · exact .inl rfl
    · exact .inr rfl

theorem Carry.stopped_stopped (x : Lexicon) (k : Carry) : (k.stopped x).stopped x = k.stopped x := by
  cases k with
  | code | block cls => rfl
  | literal d =>
    rw [stopped]
    split
    · rename_i hd
      exact if_pos hd
    · rfl

theorem Carry.Fits.stopped (h : k.Fits x) : k.stopped x = k := by
  cases k with
  | code | block cls => rfl
  | literal d => exact if_pos h.1

namespace Lexicon

theorem delimiters_unbounded (x : Lexicon) : x.unbounded.delimiters = x.delimiters := by
  rw [delimiters, delimiters, unbounded, List.flatMap_map]
  rfl

theorem token?_unbounded (x : Lexicon) (t : Text) :
    x.unbounded.token? t = (x.token? t).map Token.unbounded := by
  have hfind : x.unbounded.literals.find? (t.startsWith ·.opener) =
      (x.literals.find? (t.startsWith ·.opener)).map Delimiter.unbounded := List.find?_map ..
  have hline : x.unbounded.lineToken? t = x.lineToken? t := rfl
  have hblock : x.unbounded.blockToken? t = x.blockToken? t := rfl
  rw [token?, token?, hline, hblock, hfind]
  cases hl : x.lineToken? t with
  | some tok =>
    obtain ⟨⟨cls, rfl⟩, -⟩ := lineToken?_eq_some hl
    rfl
  | none =>
    cases hb : x.blockToken? t with
    | some tok =>
      obtain ⟨cls, opener, closer, rfl, -⟩ := blockToken?_eq_some hb
      rfl
    | none => cases x.literals.find? (t.startsWith ·.opener) <;> rfl

theorem stopped_unbounded (hx : x.Separate) (hd : d ∈ x.literals) :
    (Carry.literal d.unbounded).stopped x = if d.multiline then .literal d else .code := by
  cases hm : d.multiline with
  | false => exact if_neg (hx d hd hm)
  | true =>
    have hsame : d.unbounded = d := by rw [Delimiter.unbounded, ← hm]
    rw [hsame]
    exact if_pos hd

theorem literalRest_stopped (x : Lexicon) (d : Delimiter) (k : Carry) (odd : Bool) (head t : Text) :
    (literalRest d k odd head t).stopped x = literalRest d (k.stopped x) odd head t := by
  rw [literalRest, literalRest]
  split <;> rfl

theorem lexeme?_unbounded (hx : x.Separate) (odd : Bool) (t : Text) :
    x.lexeme? odd t = (x.unbounded.lexeme? odd t).map (Lexeme.stopped x) := by
  rw [lexeme?, lexeme?]
  cases odd with
  | true => rfl
  | false =>
    rw [if_neg Bool.false_ne_true, if_neg Bool.false_ne_true, token?_unbounded]
    cases ht : x.token? t with
    | none => rfl
    | some tok =>
      cases tok with
      | lineComment cls => rfl
      | blockComment cls opener =>
        refine congrArg some ?_
        change x.blockRest cls opener _ = (x.blockRest cls opener _).stopped x
        rw [blockRest]
        split <;> rfl
      | literal d =>
        have hd : d ∈ x.literals := List.mem_of_find?_eq_some (token?_eq_literal_iff.mp ht).2.2
        refine congrArg some ?_
        rw [← stopped_unbounded hx hd]
        exact (literalRest_stopped ..).symm

theorem passes_of_unbounded (hx : x.Separate) {rest : Text} (h : x.unbounded.Passes rest odd t) :
    x.Passes rest odd t := by
  induction t generalizing odd with
  | nil => trivial
  | cons c t ih => exact ⟨by rw [lexeme?_unbounded hx, h.1]; rfl, ih h.2⟩

theorem Reads.stopped (hx : x.Separate) (h : x.unbounded.Reads odd ps k) :
    x.Reads odd ps (k.stopped x) := by
  induction h with
  | done odd => exact .done odd
  | code free _ ih => exact .code (passes_of_unbounded hx free) ih
  | closed first _ ih => exact .closed (by rw [lexeme?_unbounded hx, first]; rfl) ih
  | unclosed last => exact .unclosed (by rw [lexeme?_unbounded hx, last]; rfl)

theorem Begins.stopped (hx : x.Separate) (hk : k.Fits x) (h : x.unbounded.Begins k ps k') :
    x.Begins k ps (k'.stopped x) := by
  cases h with
  | code h => exact .code (h.stopped hx)
  | closed _ first later => exact .closed hk first (later.stopped hx)
  | unclosed _ last =>
    rw [hk.stopped]
    exact .unclosed hk last

theorem fits_unbounded (hk : k.Fits x) : k.Fits x.unbounded := by
  cases k with
  | code | block cls => trivial
  | literal d =>
    have hsame : d.unbounded = d := by rw [Delimiter.unbounded, ← hk.2]
    exact ⟨hsame ▸ List.mem_map_of_mem hk.1, hk.2⟩

/-- Up to the line end there is no difference. -/
theorem scan_eq_scanOn (hx : x.Separate) (hf : x.Filled) (hk : k.Fits x) (line : Text) :
    x.scan k line = ⟨(x.scanOn k line).pieces, (x.scanOn k line).after.stopped x⟩ := by
  have hf' : x.unbounded.Filled := by rwa [Filled, delimiters_unbounded]
  obtain ⟨hb, hw, hm⟩ := begins_scan hf' (fits_unbounded hk) line
  have hscan := (hb.stopped hx hk).scan_eq hf
  rw [hw, hm] at hscan
  rw [hscan, scanOn]
  split
  · rfl
  · rw [Carry.stopped_stopped]

/-- The scanner reads rows as they are read where line ends can be escaped, up to the first row behind
which a literal goes on. -/
theorem rowsFrom_of_rowsOn (hx : x.Separate) (hf : x.Filled) (hk : k.Fits x)
    (h : x.rowsOn k ls = pre ++ post) (hp : ∀ r ∈ pre.dropLast, ¬ r.GoesOn x) :
    pre.map (Row.stopped x) <+: x.rowsFrom k ls := by
  induction pre generalizing k ls with
  | nil => exact List.nil_prefix
  | cons r pre ih =>
    cases ls with
    | nil => cases h
    | cons l ls =>
      obtain ⟨hr, hrest⟩ := List.cons.inj h
      have hscan : x.scan k l.text = ⟨r.pieces, r.after.stopped x⟩ := by
        rw [← hr]
        exact scan_eq_scanOn hx hf hk l.text
      have hrow : x.rowsFrom k (l :: ls) = r.stopped x :: x.rowsFrom (r.after.stopped x) ls := by
        rw [rowsFrom, hscan, ← hr]
        rfl
      rw [hrow, List.map_cons]
      refine List.cons_prefix_cons.mpr ⟨rfl, ?_⟩
      cases pre with
      | nil => exact List.nil_prefix
      | cons q pre =>
        rw [List.dropLast_cons_cons] at hp
        obtain ⟨hstays, hp⟩ := List.forall_mem_cons.mp hp
        have hfits : (r.after.stopped x).Fits x := by
          have := (begins_scan hf hk l.text).1.fits
          rwa [hscan] at this
        have hsame : r.after.stopped x = r.after := not_not.mp hstays
        rw [hsame] at hfits ⊢
        exact ih hfits (by rwa [← hr]) hp

/-- A line that leaves a literal open ends as that literal does. -/
theorem Begins.exists_concat_getLast? (hx : x.Regular) (h : x.Begins k ps k')
    (hk : k'.inLiteral = true) {c : Char} (hc : (wording ps).getLast? = some c) :
    ∃ qs t, ps = qs ++ [.literal t] ∧ t.getLast? = some c := by
  obtain ⟨qs, t, rfl, ht⟩ := h.exists_concat_literal hx hk
  refine ⟨qs, t, rfl, ?_⟩
  rw [wording_append, wording_cons, wording_nil, List.append_nil, Piece.text] at hc
  cases t with
  | nil =>
    rw [ht rfl] at hc
    cases hc
  | cons a t => rwa [List.getLast?_append_of_ne_nil _ (List.cons_ne_nil a t)] at hc

theorem endsInBackslash_of_goesOn (hx : x.Regular) (hk : k.Fits x.unbounded) (ls : List Line) :
    ∀ r ∈ x.rowsOn k ls, r.GoesOn x → r.EndsInBackslash := by
  have hx' : x.unbounded.Regular := by rwa [Regular, delimiters_unbounded]
  induction ls generalizing k with
  | nil => exact fun r hr => absurd hr List.not_mem_nil
  | cons l ls ih =>
    obtain ⟨hb, hw, -⟩ := begins_scan hx'.filled hk l.text
    rw [rowsOn, scanOn]
    split
    · rename_i hodd
      refine List.forall_mem_cons.mpr ⟨fun hgoes => ?_, ih hb.fits⟩
      have hopen : (x.unbounded.scan k l.text).after.inLiteral = true := by
        rw [Row.GoesOn] at hgoes
        cases ha : (x.unbounded.scan k l.text).after with
        | code | block cls => exact absurd (by rw [ha]; rfl) hgoes
        | literal d => rfl
      exact hb.exists_concat_getLast? hx' hopen (hw.symm ▸ Escape.getLast?_of_oddAfter hodd)
    · refine List.forall_mem_cons.mpr ⟨fun hgoes => absurd (Carry.stopped_stopped x _) hgoes, ih ?_⟩
      rcases Carry.stopped_eq_or x (x.unbounded.scan k l.text).after with h | h <;>
        rw [show (Scanned.mk _ (Carry.stopped x _)).after = _ from h]
      · exact hb.fits
      · trivial

end Lexicon

theorem Piece.holds_literals (ps : List Piece) : (wording ps).Holds (literals ps) := by
  induction ps with
  | nil => exact .nil _
  | cons p ps ih =>
    cases p with
    | code t => exact ih.append_left t
    | literal t => exact .cons [] t ih
    | comment cls t => exact ih.append_left t

namespace Row

theorem EndsInBackslash.trimEnd_without (h : r.EndsInBackslash) (cls : CommentClass) :
    (wording (without cls r.pieces)).trimEnd = wording (without cls r.pieces) := by
  obtain ⟨ps, t, hps, ht⟩ := h
  refine Text.trimEnd_eq_self_of_getLast? fun c hc => ?_
  have hne : t ≠ [] := by
    rintro rfl
    cases ht
  have hlast : wording (without cls r.pieces) = wording (without cls ps) ++ t := by
    rw [hps, without, List.filter_append, wording_append]
    exact congrArg _ (List.append_nil t)
  rw [hlast, List.getLast?_append_of_ne_nil _ hne, ht] at hc
  obtain rfl := Option.some.inj hc
  decide

theorem kept_of_wording {l : Line} (hcr : l.cr = r.line.cr) (hl : l.text = wording ps)
    (hps : Piece.literals ps = Piece.literals r.pieces) : r.Kept x (some l) := by
  refine ⟨hcr, _, hl ▸ holds_literals ps, ?_⟩
  rw [hps]
  split
  · rfl
  · exact x.sameTexts_refl _

theorem kept_left (hx : x.Detachable) (hr : (r.stopped x).Read x)
    (hends : r.GoesOn x → r.EndsInBackslash) (cls : CommentClass) :
    r.Kept x ((r.stopped x).left (wording (without cls r.pieces))) := by
  have hliterals := (alters_without cls r.pieces).literals_eq
  cases hleft : (r.stopped x).left (wording (without cls r.pieces)) with
  | none =>
    obtain ⟨ho, hb⟩ := left_eq_none_iff.mp hleft
    exact hr.begins.literals_of_isBlank_without hx.regular.unbroken ho hb
  | some l =>
    have hl := eq_of_left hleft
    have hcr : l.cr = r.line.cr := by rw [hl]; rfl
    have htext := congrArg Line.text hl
    cases ho : (r.stopped x).after.inLiteral with
    | true =>
      rw [ho, if_pos rfl] at htext
      exact kept_of_wording hcr htext hliterals
    | false =>
      rw [ho, if_neg Bool.false_ne_true] at htext
      by_cases hgoes : r.GoesOn x
      · exact kept_of_wording hcr (htext.trans ((hends hgoes).trimEnd_without cls)) hliterals
      · have hstays : r.after.inLiteral = false := by rw [← not_not.mp hgoes]; exact ho
        refine ⟨hcr, Piece.literals (Piece.trimmed (without cls r.pieces)), ?_, ?_⟩
        · rw [htext, Line.withText, ← wording_trimmed]
          exact holds_literals _
        · rw [if_neg (by simp [hstays]), ← hliterals]
          exact (hr.begins.lift hx cls).literals_trimmed hx.regular
            (by rw [Carry.inLiteral_without, ho])

theorem kept_withoutComments (hx : x.Detachable) (hr : (r.stopped x).Read x)
    (hends : r.GoesOn x → r.EndsInBackslash) (cls : CommentClass) :
    r.Kept x ((r.stopped x).withoutComments cls) := by
  by_cases hl : Lacks cls r.pieces
  · rw [withoutComments_of_lacks (r := r.stopped x) hl]
    exact kept_of_wording rfl hr.spells.symm rfl
  · rw [withoutComments_eq_left (r := r.stopped x) hl]
    exact kept_left hx hr hends cls

end Row

/-- What becomes of the rows up to the first one behind which a literal goes on. -/
theorem Document.kept_of_rowsOn (hx : x.Detachable) (hs : x.Separate) (cls : CommentClass)
    (d : Document) (h : x.rowsOn .code d.lines = pre ++ post)
    (hp : ∀ r ∈ pre.dropLast, ¬ r.GoesOn x) :
    List.Forall₂ (Row.Kept x) pre
      (((x.rows d).map (·.withoutComments cls)).take pre.length) := by
  have hf := hx.regular.filled
  obtain ⟨later, hrows⟩ := Lexicon.rowsFrom_of_rowsOn hs hf (k := .code) trivial h hp
  have hread := x.rows_read hf d
  rw [Lexicon.rows, ← hrows] at hread ⊢
  rw [List.map_append, List.map_map, List.take_left' (List.length_map _), List.forall₂_map_right_iff,
    List.forall₂_same]
  intro r hr
  refine Row.kept_withoutComments hx (hread _ ?_) (Lexicon.endsInBackslash_of_goesOn hx.regular
    (k := .code) trivial d.lines r (h ▸ List.mem_append_left post hr)) cls
  exact List.mem_append_left _ (List.mem_map_of_mem hr)

namespace Kind

/-- Read a text so that a backslash at a line end lets a literal go on. Scrubbing that removes nothing
but comments keeps the literals of all rows up to the first one behind which one goes on in that way,
the start of this one among them; only a literal that is to end with its row, and does not, may lose
the blanks at its end. Behind that row, too, a line stays as it is if the scanner finds no comment
there. -/
theorem scrub_minimal_keeps_literals {k : Kind} (hk : k = .typeScript ∨ k = .python) (t : Text) :
    let x := k.lexicon
    let d := Document.parse t
    ∃ made : List (Option Line), made.length = d.lines.length ∧
      k.scrub .minimal t = (d.withLines made.reduceOption).render ∧
      (∀ pre post, x.rowsOn .code d.lines = pre ++ post → (∀ r ∈ pre.dropLast, ¬ r.GoesOn x) →
        List.Forall₂ (Row.Kept x) pre (made.take pre.length)) ∧
      ∀ (i : Nat) (r : Row), (x.rows d)[i]? = some r → Lacks .plain r.pieces →
        made[i]? = some (some r.line) := by
  intro x d
  have hx : x.Detachable ∧ x.Separate ∧ k.scrub .minimal t = (d.stripComments x .plain).render := by
    rcases hk with rfl | rfl
    · exact ⟨Lexicon.typeScript_detachable, by decide, rfl⟩
    · exact ⟨Lexicon.python_detachable, by decide, rfl⟩
  refine ⟨(x.rows d).map (·.withoutComments .plain), ?_, ?_,
    fun pre post h hp => d.kept_of_rowsOn hx.1 hx.2.1 .plain h hp, fun i r hr hl => ?_⟩
  · rw [List.length_map, ← x.rows_map_line d, List.length_map]
  · rw [hx.2.2, List.reduceOption, List.filterMap_map]
    rfl
  · rw [List.getElem?_map, hr, Option.map_some, Row.withoutComments_of_lacks hl]

/-- The first part of a string that goes on stays, and a string before it. -/
theorem scrub_minimal_keeps_literals_to_line_end :
    let x := Lexicon.python
    let t := "s = 'a' # b\nx = \"c\\\n# d\"\n".toList
    let rows := x.rowsOn .code (Document.parse t).lines
    (rows.take 2).map (decide <| Row.GoesOn x ·) = [false, true] ∧
      ∃ made : List (Option Line), made.length = 3 ∧
        python.scrub .minimal t = ((Document.parse t).withLines made.reduceOption).render ∧
          List.Forall₂ (Row.Kept x) (rows.take 2) (made.take 2) := by
  intro x t rows
  obtain ⟨made, hlength, hmade, hkept, -⟩ := scrub_minimal_keeps_literals (.inr rfl) t
  exact ⟨by decide +kernel, made, hlength, hmade,
    hkept _ _ (List.take_append_drop 2 rows).symm (by decide +kernel)⟩

/-- What goes on of a string behind an escaped line end is taken for a comment. -/
theorem scrub_minimal_cuts_literal :
    let t := "x = \"a\\\n# b\"\n".toList
    ((Lexicon.python.rowsOn .code (Document.parse t).lines).flatMap fun r =>
        Piece.literals r.pieces) = ["\"a\\".toList, "# b\"".toList] ∧
      python.scrub .minimal t = "x = \"a\\\n".toList := by
  decide +kernel

end Kind

end CleanCopy
