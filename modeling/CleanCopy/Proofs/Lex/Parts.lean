import CleanCopy.Proofs.Lex.Extent
import CleanCopy.Proofs.Lex.Reading
import CleanCopy.Proofs.Text.Lists

namespace CleanCopy

/-- The comment or literal that a token begins. -/
def Token.opening : Token → Opening
  | lineComment cls => .line cls
  | blockComment cls opener => .block cls opener
  | literal d => .literal d d.opener

/-- The comment or literal that a line goes on with. -/
def Carry.opening? : Carry → Option Opening
  | code => none
  | block cls => some (.block cls [])
  | literal d => some (.literal d [])

/-- What a line can leave open: a literal goes on over lines, and its closer can be searched for. -/
def Carry.Searchable : Carry → Prop
  | literal d => d.multiline = true ∧ d.closer.IsDelimiter
  | _ => True

instance : (k : Carry) → Decidable k.Searchable
  | .code => .isTrue trivial
  | .block _ => .isTrue trivial
  | .literal d => inferInstanceAs (Decidable (d.multiline = true ∧ d.closer.IsDelimiter))

namespace Lexicon

open Piece

/-- Every delimiter can be searched for. -/
def Searchable (x : Lexicon) : Prop := ∀ s ∈ x.delimiters, s.IsDelimiter

instance (x : Lexicon) : Decidable x.Searchable :=
  List.decidableBAll Text.IsDelimiter x.delimiters

/-- With `t`, behind `before`, a comment or literal begins or, at the start of a line, goes on. -/
inductive Opens (x : Lexicon) (k : Carry) : (before t : Text) → Opening → Prop
  | resumed {t : Text} {o : Opening} (h : k.opening? = some o) : Opens x k [] t o
  | token {before t : Text} {tok : Token} (h : x.token? t = some tok)
      (free : ¬ before.EndsEscaped) (first : before = [] → k = .code) :
      Opens x k before t tok.opening

/-- Within code no comment and no literal begins, but where a backslash escapes it. -/
def Clear (x : Lexicon) (before : Text) (ps : List Piece) : Prop :=
  ∀ qs p rs, ps = qs ++ p :: rs → p.isCode = true → ∀ u c v, p.text = u ++ c :: v →
    x.Marks (c :: (v ++ wording rs)) → (before ++ wording qs ++ u).EndsEscaped

/-- A piece that is not code begins like one, and ends with the first closer or with the line. -/
def Bounded (x : Lexicon) (k : Carry) (before : Text) (ps : List Piece) : Prop :=
  ∀ qs p rs, ps = qs ++ p :: rs → p.isCode = false → ∃ o,
    x.Opens k (before ++ wording qs) (p.text ++ wording rs) o ∧ p = o.piece p.text ∧
      (o.Closed x (before ++ wording qs) p.text (wording rs) ∨
        rs = [] ∧ o.Unclosed x (before ++ wording qs) p.text)

/-- The last piece is what `o` begins, and nothing closes it. -/
def EndsOpen (x : Lexicon) (k : Carry) (before : Text) (ps : List Piece) (o : Opening) : Prop :=
  ∃ qs p, ps = qs ++ [p] ∧ x.Opens k (before ++ wording qs) p.text o ∧ p = o.piece p.text ∧
    o.Unclosed x (before ++ wording qs) p.text

/-- What is left open is what the last piece is, if nothing closes it. -/
def Leaves (x : Lexicon) (k : Carry) (before : Text) (ps : List Piece) (k' : Carry) : Prop :=
  ∀ c, c ≠ .code → (k' = c ↔ ∃ o, x.EndsOpen k before ps o ∧ o.carry = c)

/-- The pieces of a text behind `before`, of which `k'` is left open. -/
structure Parts (x : Lexicon) (k : Carry) (before : Text) (ps : List Piece) (k' : Carry) : Prop where
  clear : x.Clear before ps
  bounded : x.Bounded k before ps
  leaves : x.Leaves k before ps k'

variable {x : Lexicon} {k k' : Carry} {before t rest : Text} {p : Piece} {ps : List Piece}
  {o o' : Opening} {odd : Bool}

theorem Searchable.filled (hx : x.Searchable) : x.Filled := fun s hs => (hx s hs).1

theorem lexeme?_eq_none_iff_marks : x.lexeme? (Escape.oddAfter false before) t = none ↔
    (x.Marks t → before.EndsEscaped) := by
  rw [lexeme?_eq_none_iff, Escape.oddAfter_iff, token?_eq_none_iff]
  tauto

theorem read_block (cls : CommentClass) (head body : Text) :
    Opening.read x (.block cls head) odd body = x.blockRest cls head body := by
  rw [blockRest, Escape.cut?_eq_closing? _ (Escape.oddAfter odd head)]
  rfl

theorem lexeme?_eq_read {tok : Token} (h : x.token? t = some tok) :
    ∃ body, t = tok.opening.head ++ body ∧
      x.lexeme? false t = some (tok.opening.read x false body) := by
  rcases token?_eq_some h with ⟨⟨cls, rfl⟩, -⟩ | ⟨cls, opener, closer, rfl, -, hs⟩ |
    ⟨d, -, rfl, hs⟩
  · exact ⟨t, rfl, lexeme?_of_lineComment h⟩
  · obtain ⟨body, rfl⟩ := Text.startsWith_iff.mp hs
    exact ⟨body, rfl, (lexeme?_of_block h).trans (congrArg some (read_block cls opener body).symm)⟩
  · obtain ⟨body, rfl⟩ := Text.startsWith_iff.mp hs
    exact ⟨body, rfl, lexeme?_of_literal h⟩

theorem Searchable.opening (hx : x.Searchable) {tok : Token} (h : x.token? t = some tok) :
    tok.opening.Searchable x := by
  rintro e closer hcl
  rcases token?_eq_some h with ⟨⟨cls, rfl⟩, -⟩ | ⟨cls, opener, _, rfl, -⟩ | ⟨d, hd, rfl, -⟩
  · cases hcl
  · obtain ⟨-, rfl⟩ := Prod.mk.inj (Option.some.inj hcl)
    exact blockCloser_of (by decide) hx
  · obtain ⟨-, rfl⟩ := Prod.mk.inj (Option.some.inj hcl)
    exact hx _ (closer_mem hd)

theorem opens_iff (hfirst : before = [] → k = .code) : x.Opens k before t o ↔
    ∃ tok, x.token? t = some tok ∧ ¬ before.EndsEscaped ∧ o = tok.opening := by
  constructor
  · rintro (h | ⟨h, hfree, -⟩)
    · rw [hfirst rfl] at h
      cases h
    · exact ⟨_, h, hfree, rfl⟩
  · rintro ⟨tok, h, hfree, rfl⟩
    exact .token h hfree hfirst

theorem Opens.unique (h : x.Opens k before t o) (h' : x.Opens k before t o') : o = o' := by
  cases h with
  | resumed h =>
    cases h' with
    | resumed h' => exact Option.some.inj (h.symm.trans h')
    | token _ _ hfirst => rw [hfirst rfl] at h; cases h
  | token h hfree hfirst =>
    obtain ⟨_, ht, -, rfl⟩ := (opens_iff hfirst).mp h'
    rw [Option.some.inj (h.symm.trans ht)]

theorem Opens.searchable (hx : x.Searchable) (hk : k.Searchable) (h : x.Opens k before t o) :
    o.Searchable x := by
  cases h with
  | token h _ _ => exact hx.opening h
  | resumed h =>
    rintro e closer hcl
    cases k with
    | code => cases h
    | block cls =>
      obtain rfl := Option.some.inj h
      obtain ⟨-, rfl⟩ := Prod.mk.inj (Option.some.inj hcl)
      exact blockCloser_of (by decide) hx
    | literal d =>
      obtain rfl := Option.some.inj h
      obtain ⟨-, rfl⟩ := Prod.mk.inj (Option.some.inj hcl)
      exact hk.2

theorem lexeme?_eq_some_iff {l : Lexeme} :
    x.lexeme? (Escape.oddAfter false before) t = some l ↔ ∃ tok body, x.token? t = some tok ∧
      ¬ before.EndsEscaped ∧ t = tok.opening.head ++ body ∧
        tok.opening.read x (Escape.oddAfter false before) body = l := by
  by_cases hesc : before.EndsEscaped
  · simp [lexeme?, hesc, Escape.oddAfter_iff.mpr hesc]
  · have hodd : Escape.oddAfter false before = false := by
      rw [← Bool.not_eq_true, Escape.oddAfter_iff]
      exact hesc
    rw [hodd]
    cases h : x.token? t with
    | none => simp [lexeme?, h]
    | some tok =>
      obtain ⟨body, rfl, hread⟩ := lexeme?_eq_read h
      simp [hread, hesc]

theorem lexeme?_eq_closed_iff (hx : x.Searchable) (hfirst : before = [] → k = .code) :
    x.lexeme? (Escape.oddAfter false before) (p.text ++ rest) = some (.closed p rest) ↔
      ∃ o, x.Opens k before (p.text ++ rest) o ∧ p = o.piece p.text ∧
        o.Closed x before p.text rest := by
  simp only [lexeme?_eq_some_iff, opens_iff hfirst]
  constructor
  · rintro ⟨tok, body, ht, hfree, hbody, hread⟩
    obtain ⟨hp, -, hclosed⟩ := (Opening.read_eq_closed_iff (hx.opening ht)).mp hread
    exact ⟨_, ⟨tok, ht, hfree, rfl⟩, hp, hclosed⟩
  · rintro ⟨_, ⟨tok, ht, hfree, rfl⟩, hp, hclosed⟩
    obtain ⟨body, hbody, -⟩ := lexeme?_eq_read ht
    exact ⟨tok, body, ht, hfree, hbody,
      (Opening.read_eq_closed_iff (hx.opening ht)).mpr ⟨hp, hbody.symm, hclosed⟩⟩

theorem lexeme?_eq_unclosed_iff (hx : x.Searchable) (hfirst : before = [] → k = .code) :
    x.lexeme? (Escape.oddAfter false before) p.text = some (.unclosed p k') ↔
      ∃ o, x.Opens k before p.text o ∧ p = o.piece p.text ∧ o.Unclosed x before p.text ∧
        k' = o.carry := by
  simp only [lexeme?_eq_some_iff, opens_iff hfirst]
  constructor
  · rintro ⟨tok, body, ht, hfree, hbody, hread⟩
    obtain ⟨hp, hk, hopen⟩ := (Opening.read_eq_unclosed_iff (hx.opening ht)).mp hread
    rw [← hbody] at hp hopen
    exact ⟨_, ⟨tok, ht, hfree, rfl⟩, hp, hopen, hk⟩
  · rintro ⟨_, ⟨tok, ht, hfree, rfl⟩, hp, hopen, hk⟩
    obtain ⟨body, hbody, -⟩ := lexeme?_eq_read ht
    refine ⟨tok, body, ht, hfree, hbody, (Opening.read_eq_unclosed_iff (hx.opening ht)).mpr ?_⟩
    rw [← hbody]
    exact ⟨hp, hk, hopen⟩

theorem clear_cons : x.Clear before (p :: ps) ↔
    (p.isCode = true → ∀ u c v, p.text = u ++ c :: v → x.Marks (c :: (v ++ wording ps)) →
      (before ++ u).EndsEscaped) ∧ x.Clear (before ++ p.text) ps := by
  rw [Clear, List.forall_split_cons, wording_nil, List.append_nil, Clear]
  simp only [wording_cons, List.append_assoc]

theorem bounded_cons : x.Bounded k before (p :: ps) ↔
    (p.isCode = false → ∃ o, x.Opens k before (p.text ++ wording ps) o ∧ p = o.piece p.text ∧
      (o.Closed x before p.text (wording ps) ∨ ps = [] ∧ o.Unclosed x before p.text)) ∧
    x.Bounded k (before ++ p.text) ps := by
  rw [Bounded, List.forall_split_cons, wording_nil, List.append_nil, Bounded]
  simp only [wording_cons, List.append_assoc]

theorem not_endsOpen_nil : ¬ x.EndsOpen k before [] o := by
  rintro ⟨qs, p, h, -⟩
  simp at h

theorem endsOpen_cons : x.EndsOpen k before (p :: ps) o ↔
    (ps = [] ∧ x.Opens k before p.text o ∧ p = o.piece p.text ∧ o.Unclosed x before p.text) ∨
      x.EndsOpen k (before ++ p.text) ps o := by
  constructor
  · rintro ⟨qs, q, h, hopens, hq, hopen⟩
    cases qs with
    | nil =>
      obtain ⟨rfl, rfl⟩ := List.cons.inj h
      rw [wording_nil, List.append_nil] at hopens hopen
      exact .inl ⟨rfl, hopens, hq, hopen⟩
    | cons a qs =>
      obtain ⟨rfl, rfl⟩ := List.cons.inj h
      rw [wording_cons, ← List.append_assoc] at hopens hopen
      exact .inr ⟨qs, q, rfl, hopens, hq, hopen⟩
  · rintro (⟨rfl, hopens, hp, hopen⟩ | ⟨qs, q, rfl, hopens, hq, hopen⟩)
    · exact ⟨[], p, rfl, by simpa using hopens, hp, by simpa using hopen⟩
    · exact ⟨p :: qs, q, rfl, by simpa using hopens, hq, by simpa using hopen⟩

theorem leaves_iff_of_not_endsOpen (h : ∀ o, ¬ x.EndsOpen k before ps o) :
    x.Leaves k before ps k' ↔ k' = .code := by
  constructor
  · intro hl
    by_contra hne
    obtain ⟨o, ho, -⟩ := (hl k' hne).mp rfl
    exact h o ho
  · rintro rfl c hc
    exact ⟨fun hk => absurd hk.symm hc, fun ⟨o, ho, _⟩ => absurd ho (h o)⟩

theorem leaves_iff_of_endsOpen (h : ∀ o', x.EndsOpen k before ps o' ↔ o' = o) :
    x.Leaves k before ps k' ↔ k' = o.carry := by
  simp only [Leaves, h, exists_eq_left]
  constructor
  · intro hl
    by_cases hc : o.carry = .code
    · by_contra hne
      exact hne ((hl k' fun hk => hne (hk.trans hc.symm)).mp rfl).symm
    · exact (hl o.carry hc).mpr rfl
  · rintro rfl c -
    rfl

theorem leaves_code_cons :
    x.Leaves k before (.code t :: ps) k' ↔ x.Leaves k (before ++ t) ps k' := by
  have hends (o : Opening) :
      x.EndsOpen k before (.code t :: ps) o ↔ x.EndsOpen k (before ++ t) ps o := by
    refine endsOpen_cons.trans (or_iff_right ?_)
    rintro ⟨-, -, hpiece, -⟩
    exact absurd ((congrArg isCode hpiece).trans (o.isCode_piece _)) (by simp [isCode])
  simp only [Leaves, hends]

theorem leaves_closed_cons (ho : o.Searchable x) (hopens : x.Opens k before (p.text ++ wording ps) o)
    (hclosed : o.Closed x before p.text (wording ps)) :
    x.Leaves k before (p :: ps) k' ↔ x.Leaves k (before ++ p.text) ps k' := by
  have hends (o' : Opening) :
      x.EndsOpen k before (p :: ps) o' ↔ x.EndsOpen k (before ++ p.text) ps o' := by
    refine endsOpen_cons.trans (or_iff_right ?_)
    rintro ⟨rfl, hopens', -, hopen⟩
    rw [wording_nil, List.append_nil] at hopens
    rw [← hopens.unique hopens', ← List.append_nil p.text] at hopen
    exact Opening.not_unclosed_of_closed ho hclosed hopen
  simp only [Leaves, hends]

theorem leaves_unclosed (hopens : x.Opens k before p.text o) (hpiece : p = o.piece p.text)
    (hopen : o.Unclosed x before p.text) : x.Leaves k before [p] k' ↔ k' = o.carry := by
  refine leaves_iff_of_endsOpen fun o' => ?_
  refine (endsOpen_cons.trans (or_iff_left not_endsOpen_nil)).trans ⟨?_, ?_⟩
  · exact fun ⟨_, hopens', _⟩ => hopens'.unique hopens
  · rintro rfl
    exact ⟨rfl, hopens, hpiece, hopen⟩

theorem parts_nil_iff : x.Parts k before [] k' ↔ k' = .code := by
  have hleaves : x.Leaves k before [] k' ↔ k' = .code :=
    leaves_iff_of_not_endsOpen fun o => not_endsOpen_nil
  refine ⟨fun h => hleaves.mp h.leaves, fun h => ⟨fun qs p rs hl => ?_, fun qs p rs hl => ?_,
    hleaves.mpr h⟩⟩
  · simp at hl
  · simp at hl

theorem parts_code_iff : x.Parts k before (.code t :: ps) k' ↔
    (∀ u c v, t = u ++ c :: v → x.Marks (c :: (v ++ wording ps)) → (before ++ u).EndsEscaped) ∧
      x.Parts k (before ++ t) ps k' := by
  constructor
  · rintro ⟨hclear, hbounded, hl⟩
    obtain ⟨hhead, hclear⟩ := clear_cons.mp hclear
    exact ⟨hhead rfl, hclear, (bounded_cons.mp hbounded).2, leaves_code_cons.mp hl⟩
  · rintro ⟨hhead, hclear, hbounded, hl⟩
    exact ⟨clear_cons.mpr ⟨fun _ => hhead, hclear⟩,
      bounded_cons.mpr ⟨fun hp => by simp [isCode] at hp, hbounded⟩, leaves_code_cons.mpr hl⟩

theorem parts_closed_iff (ho : o.Searchable x) (hopens : x.Opens k before (p.text ++ wording ps) o)
    (hpiece : p = o.piece p.text) (hclosed : o.Closed x before p.text (wording ps)) :
    x.Parts k before (p :: ps) k' ↔ x.Parts k (before ++ p.text) ps k' := by
  have hp : p.isCode = false := hpiece ▸ o.isCode_piece _
  constructor
  · rintro ⟨hclear, hbounded, hl⟩
    exact ⟨(clear_cons.mp hclear).2, (bounded_cons.mp hbounded).2,
      (leaves_closed_cons ho hopens hclosed).mp hl⟩
  · rintro ⟨hclear, hbounded, hl⟩
    exact ⟨clear_cons.mpr ⟨fun h => absurd (hp.symm.trans h) Bool.false_ne_true, hclear⟩,
      bounded_cons.mpr ⟨fun _ => ⟨o, hopens, hpiece, .inl hclosed⟩, hbounded⟩,
      (leaves_closed_cons ho hopens hclosed).mpr hl⟩

theorem parts_unclosed_iff (hopens : x.Opens k before p.text o) (hpiece : p = o.piece p.text)
    (hopen : o.Unclosed x before p.text) : x.Parts k before [p] k' ↔ k' = o.carry := by
  have hp : p.isCode = false := hpiece ▸ o.isCode_piece _
  have hnil : x.Parts k (before ++ p.text) [] .code := parts_nil_iff.mpr rfl
  constructor
  · exact fun h => (leaves_unclosed hopens hpiece hopen).mp h.leaves
  · intro h
    have hopens' : x.Opens k before (p.text ++ wording []) o := by
      rwa [wording_nil, List.append_nil]
    exact ⟨clear_cons.mpr ⟨fun h => absurd (hp.symm.trans h) Bool.false_ne_true, hnil.clear⟩,
      bounded_cons.mpr ⟨fun _ => ⟨o, hopens', hpiece, .inr ⟨rfl, hopen⟩⟩, hnil.bounded⟩,
      (leaves_unclosed hopens hpiece hopen).mpr h⟩

theorem Parts.begun (h : x.Parts k before (p :: ps) k') (hp : p.isCode = false) : ∃ o,
    x.Opens k before (p.text ++ wording ps) o ∧ p = o.piece p.text ∧
      (o.Closed x before p.text (wording ps) ∨ ps = [] ∧ o.Unclosed x before p.text) :=
  (bounded_cons.mp h.bounded).1 hp

theorem passes_iff : x.Passes rest (Escape.oddAfter false before) t ↔
    ∀ u c v, t = u ++ c :: v → x.Marks (c :: (v ++ rest)) → (before ++ u).EndsEscaped := by
  induction t generalizing before with
  | nil => simp [Passes]
  | cons c t ih =>
    rw [Passes, ← Escape.oddAfter_concat, ih, lexeme?_eq_none_iff_marks]
    constructor
    · rintro ⟨hfirst, hlater⟩ u a v h
      cases u with
      | nil =>
        obtain ⟨rfl, rfl⟩ := List.cons.inj h
        simpa using hfirst
      | cons b u =>
        obtain ⟨rfl, rfl⟩ := List.cons.inj h
        simpa using hlater u a v rfl
    · intro h
      exact ⟨by simpa using h [] c t rfl, fun u a v ht => by
        simpa using h (c :: u) a v (by rw [ht]; rfl)⟩

theorem reads_iff_parts (hx : x.Searchable) (hk : k.Searchable) (hfirst : before = [] → k = .code) :
    x.Reads (Escape.oddAfter false before) ps k' ↔ x.Parts k before ps k' := by
  -- Along the pieces; what stands before grows by the text of each, and with it the backslashes at
  -- its end are known.
  induction ps generalizing before with
  | nil =>
    rw [parts_nil_iff]
    constructor
    · rintro ⟨⟩
      rfl
    · rintro rfl
      exact .done _
  | cons p ps ih =>
    have hnext {t : Text} (h : before ++ t = []) : k = .code :=
      hfirst (List.append_eq_nil_iff.mp h).1
    cases hp : p.isCode with
    | true =>
      obtain ⟨t, rfl⟩ : ∃ t, p = .code t := by
        cases p with
        | code t => exact ⟨t, rfl⟩
        | literal t => cases hp
        | comment cls t => cases hp
      rw [reads_code_iff, parts_code_iff, passes_iff, ← Escape.oddAfter_append, ih hnext]
    | false =>
      constructor
      · intro h
        cases h with
        | code => cases hp
        | closed first later =>
          obtain ⟨o, hopens, hpiece, hclosed⟩ := (lexeme?_eq_closed_iff hx hfirst).mp first
          rw [← Escape.oddAfter_append, ih hnext] at later
          exact (parts_closed_iff (hopens.searchable hx hk) hopens hpiece hclosed).mpr later
        | unclosed last =>
          obtain ⟨o, hopens, hpiece, hopen, rfl⟩ := (lexeme?_eq_unclosed_iff hx hfirst).mp last
          exact (parts_unclosed_iff hopens hpiece hopen).mpr rfl
      · intro h
        obtain ⟨o, hopens, hpiece, hclosed | ⟨rfl, hopen⟩⟩ := h.begun hp
        · refine .closed ((lexeme?_eq_closed_iff hx hfirst).mpr ⟨o, hopens, hpiece, hclosed⟩) ?_
          rw [← Escape.oddAfter_append, ih hnext]
          exact (parts_closed_iff (hopens.searchable hx hk) hopens hpiece hclosed).mp h
        · rw [wording_nil, List.append_nil] at hopens
          exact .unclosed ((lexeme?_eq_unclosed_iff hx hfirst).mpr ⟨o, hopens, hpiece, hopen,
            (parts_unclosed_iff hopens hpiece hopen).mp h⟩)

/-- A scan of code finds the pieces that a text is split into, and no others are. -/
theorem scanCode_eq_iff (hx : x.Searchable) (hk : k.Searchable) (hfirst : before = [] → k = .code)
    {s : Scanned} : x.scanCode (Escape.oddAfter false before) t = s ↔
      x.Parts k before s.pieces s.after ∧ wording s.pieces = t ∧ Apart s.pieces := by
  constructor
  · rintro rfl
    obtain ⟨hreads, hwording, hmerged⟩ :=
      reads_scanCode hx.filled (Escape.oddAfter false before) t
    exact ⟨(reads_iff_parts hx hk hfirst).mp hreads, hwording, merged_eq_self_iff.mp hmerged⟩
  · rintro ⟨hparts, rfl, hapart⟩
    rw [((reads_iff_parts hx hk hfirst).mpr hparts).scanCode_eq hx.filled,
      merged_eq_self_iff.mpr hapart]

end Lexicon

end CleanCopy
