import CleanCopy.Proofs.Lex.Parts

namespace CleanCopy.Lexicon

open Piece

/-- What a line is split into that begins with `k`. -/
structure Splits (x : Lexicon) (k : Carry) (line : Text) (s : Scanned) : Prop
    extends x.Parts k [] s.pieces s.after where
  spells : wording s.pieces = line
  apart : Apart s.pieces
  /-- What was open before goes on first. -/
  resumes : ∀ o, k.opening? = some o → ∃ t ps, s.pieces = o.piece t :: ps
  /-- A line in which nothing closes it is one piece, and it stays open. -/
  stays : ∀ o, k.opening? = some o → o.Unclosed x [] line → s = ⟨[o.piece line], k⟩

/-- A comment or literal that is closed takes a character at least, so that a scan comes to the end
of its line. -/
def Advances (x : Lexicon) : Prop :=
  ∀ odd t p rest, x.lexeme? odd t = some (.closed p rest) → rest.length < t.length

variable {x : Lexicon} {k : Carry} {line t rest : Text} {ps : List Piece} {o : Opening}

theorem opening?_carry (hk : k.Searchable) (h : k.opening? = some o) : o.carry = k := by
  cases k with
  | code => cases h
  | block cls =>
    obtain rfl := Option.some.inj h
    rfl
  | literal d =>
    obtain rfl := Option.some.inj h
    exact if_pos hk.1

theorem opening?_head (h : k.opening? = some o) : o.head = [] := by
  cases k with
  | code => cases h
  | block cls => rw [← Option.some.inj h]; rfl
  | literal d => rw [← Option.some.inj h]; rfl

theorem resume?_eq_read (hk : k.Searchable) (h : k.opening? = some o) (t : Text) :
    x.resume? k t = some (o.read x (Escape.oddAfter false []) t) := by
  have hcarry := opening?_carry hk h
  cases k with
  | code => cases h
  | block cls =>
    obtain rfl := Option.some.inj h
    exact congrArg some (read_block cls [] t).symm
  | literal d =>
    obtain rfl := Option.some.inj h
    rw [resume?, ← hcarry]
    rfl

theorem scan_of_unclosed (hx : x.Searchable) (hk : k.Searchable) (h : k.opening? = some o)
    (hopen : o.Unclosed x [] line) : x.scan k line = ⟨[o.piece line], k⟩ := by
  have ho : o.Searchable x := (Opens.resumed (t := line) h).searchable hx hk
  have hline : line = o.head ++ line := by rw [opening?_head h, List.nil_append]
  have hread : o.read x (Escape.oddAfter false []) line = .unclosed (o.piece line) k :=
    (Opening.read_eq_unclosed_iff ho).mpr
      ⟨congrArg o.piece hline, (opening?_carry hk h).symm, hline ▸ hopen⟩
  rw [scan, resume?_eq_read hk h, hread]

theorem scan_of_closed (hx : x.Searchable) (hk : k.Searchable) (h : k.opening? = some o)
    (hclosed : o.Closed x [] t rest) :
    x.scan k (t ++ rest) = (x.scanCode (Escape.oddAfter false t) rest).cons (o.piece t) := by
  have ho : o.Searchable x := (Opens.resumed (t := t) h).searchable hx hk
  have hline : o.head ++ (t ++ rest) = t ++ rest := by rw [opening?_head h, List.nil_append]
  have hread : o.read x (Escape.oddAfter false []) (t ++ rest) = .closed (o.piece t) rest :=
    Opening.read_of_closed ho hline hclosed
  rw [scan, resume?_eq_read hk h, hread]
  simp only [Opening.text_piece]

theorem apart_piece_cons : Apart (o.piece t :: ps) ↔ Apart ps := by
  have hcode := o.isCode_piece t
  rw [apart_cons]
  refine ⟨fun h => h.2.2, fun h => ⟨fun q _ hp => ?_, fun hp => ?_, h⟩⟩
  · exact absurd (hcode.symm.trans hp) Bool.false_ne_true
  · rw [hp] at hcode
    cases hcode

theorem splits_unclosed (h : k.opening? = some o) (hk : k.Searchable)
    (hopen : o.Unclosed x [] line) : x.Splits k line ⟨[o.piece line], k⟩ := by
  have hopens : x.Opens k [] (o.piece line).text o := .resumed h
  refine ⟨(parts_unclosed_iff hopens (by simp) (by simpa)).mpr (opening?_carry hk h).symm,
    by simp, apart_piece_cons.mpr ⟨.nil, List.not_mem_nil⟩, fun o' ho' => ?_, fun o' ho' _ => ?_⟩
  · obtain rfl := Option.some.inj (h.symm.trans ho')
    exact ⟨line, [], rfl⟩
  · obtain rfl := Option.some.inj (h.symm.trans ho')
    rfl

theorem splits_closed_iff (hx : x.Searchable) (hk : k.Searchable) (h : k.opening? = some o)
    (hclosed : o.Closed x [] t rest) {s : Scanned} : x.Splits k (t ++ rest) s ↔
      ∃ s' : Scanned, s = s'.cons (o.piece t) ∧ x.Parts k t s'.pieces s'.after ∧
        wording s'.pieces = rest ∧ Apart s'.pieces := by
  have hopens (u : Text) : x.Opens k [] u o := .resumed h
  have ho : o.Searchable x := (hopens t).searchable hx hk
  constructor
  · rintro ⟨hparts, hspells, hapart, hresumes, -⟩
    obtain ⟨u, ps, hps⟩ := hresumes o h
    rw [hps] at hparts hspells hapart
    rw [wording_cons, Opening.text_piece] at hspells
    obtain ⟨o', hopens', -, hends⟩ := hparts.begun (o.isCode_piece u)
    obtain rfl := hopens'.unique (hopens _)
    rw [Opening.text_piece] at hends
    rcases hends with hends | ⟨rfl, hopen⟩
    · obtain ⟨rfl, hrest⟩ := Opening.closed_unique ho hends hclosed hspells
      refine ⟨⟨ps, s.after⟩, ?_, ?_, hrest, apart_piece_cons.mp hapart⟩
      · rw [Scanned.cons, ← hps]
      · simpa using (parts_closed_iff ho (hopens _) (by simp) (by simpa)).mp hparts
    · rw [wording_nil, List.append_nil] at hspells
      exact absurd (hspells ▸ hopen) (Opening.not_unclosed_of_closed ho hclosed)
  · rintro ⟨s', rfl, hparts, rfl, hapart⟩
    refine ⟨(parts_closed_iff ho (hopens _) (by simp) (by simpa)).mpr (by simpa),
      by simp [Scanned.cons], apart_piece_cons.mpr hapart, fun o' ho' => ?_, fun o' ho' hopen => ?_⟩
    · obtain rfl := Option.some.inj (h.symm.trans ho')
      exact ⟨t, _, rfl⟩
    · obtain rfl := Option.some.inj (h.symm.trans ho')
      exact absurd hopen (Opening.not_unclosed_of_closed ho hclosed)

theorem scan_eq_iff_splits (hx : x.Searchable) (hk : k.Searchable) {s : Scanned} :
    x.scan k line = s ↔ x.Splits k line s := by
  -- A line begins with code, goes on with what it does not close, or closes it first.
  cases h : k.opening? with
  | none =>
    obtain rfl : k = .code := by
      cases k with
      | code => rfl
      | block cls => cases h
      | literal d => cases h
    rw [scan, resume?, show false = Escape.oddAfter false [] from rfl,
      scanCode_eq_iff hx hk (fun _ => rfl)]
    constructor
    · rintro ⟨hparts, hwording, hapart⟩
      exact ⟨hparts, hwording, hapart, by simp [h], by simp [h]⟩
    · exact fun hs => ⟨hs.toParts, hs.spells, hs.apart⟩
  | some o =>
    have ho : o.Searchable x := (Opens.resumed (t := line) h).searchable hx hk
    rcases Opening.unclosed_or_closed ho [] line with hopen | ⟨t, rest, ht, hclosed⟩
    · rw [opening?_head h, List.nil_append] at hopen
      rw [scan_of_unclosed hx hk h hopen]
      constructor
      · rintro rfl
        exact splits_unclosed h hk hopen
      · exact fun hs => (hs.stays o h hopen).symm
    · rw [opening?_head h, List.nil_append] at ht
      rw [ht, splits_closed_iff hx hk h hclosed, scan_of_closed hx hk h hclosed]
      have hfirst : t = [] → k = .code := fun ht => absurd ht (hclosed.ne_nil ho)
      constructor
      · rintro rfl
        exact ⟨_, rfl, (scanCode_eq_iff hx hk hfirst).mp rfl⟩
      · rintro ⟨s', rfl, hs'⟩
        rw [(scanCode_eq_iff hx hk hfirst).mpr hs']

theorem advances (hx : x.Searchable) : x.Advances := by
  intro odd t p rest h
  have hlen := List.length_pos_iff.mpr ((sealed_of_lexeme? h).text_ne_nil hx.filled)
  rw [← lexeme?_text h, Lexeme.text, List.length_append]
  omega

/-- A scan comes to the end of its line, and splits it in the one way there is. -/
theorem scan_splits (hx : x.Searchable) (hk : k.Searchable) (line : Text) :
    x.Advances ∧ x.Splits k line (x.scan k line) ∧
      ∀ s, x.Splits k line s → s = x.scan k line :=
  ⟨advances hx, (scan_eq_iff_splits hx hk).mp rfl,
    fun _ h => ((scan_eq_iff_splits hx hk).mpr h).symm⟩

/-- A verbatim string ends, a doubled quote and a backslash in it notwithstanding; then come an
escaped quote, a literal with an escaped quote in it, and a comment that stays open. -/
theorem scan_splits_after_verbatim :
    cSharp.Splits (.literal (.spanning ['@', '\"'] ['\"'] .doubled))
      ['a', '\"', '\"', '\\', '\"', '\\', '\"', '\'', '\\', '\'', '\'', '/', '*', '*', '/',
        '/', '*', '*', ' ', 'b']
      ⟨[.literal ['a', '\"', '\"', '\\', '\"'], .code ['\\', '\"'],
        .literal ['\'', '\\', '\'', '\''], .comment .plain ['/', '*', '*', '/'],
        .comment .doc ['/', '*', '*', ' ', 'b']], .block .doc⟩ := by
  refine (congrArg (cSharp.Splits _ _) ?_).mp (scan_splits (by decide) (by decide) _).2.1
  decide +kernel

theorem Splits.searchable_after {s : Scanned} (hx : x.Searchable) (hk : k.Searchable)
    (h : x.Splits k line s) : s.after.Searchable := by
  cases hs : s.after with
  | code => trivial
  | block cls => trivial
  | literal d =>
    obtain ⟨o, ⟨qs, p, -, hopens, -, -⟩, hcarry⟩ := (h.leaves (.literal d) (by simp)).mp hs
    have ho := hopens.searchable hx hk
    cases o with
    | line cls => cases hcarry
    | block cls head => cases hcarry
    | literal d' head =>
      cases hd : d'.multiline with
      | false => simp [Opening.carry, hd] at hcarry
      | true =>
        obtain rfl : d' = d := by simpa [Opening.carry, hd] using hcarry
        exact ⟨hd, ho d'.escape d'.closer rfl⟩

theorem rowsFrom_split (hx : x.Searchable) (hk : k.Searchable) (ls : List Line) :
    ∀ r ∈ x.rowsFrom k ls, x.Splits r.before r.line.text ⟨r.pieces, r.after⟩ := by
  induction ls generalizing k with
  | nil => simp [rowsFrom]
  | cons l ls ih =>
    have hsplits : x.Splits k l.text (x.scan k l.text) := (scan_eq_iff_splits hx hk).mp rfl
    simp only [rowsFrom, List.mem_cons]
    rintro r (rfl | hr)
    · exact hsplits
    · exact ih (hsplits.searchable_after hx hk) r hr

theorem rows_split (hx : x.Searchable) (d : Document) :
    ∀ r ∈ x.rows d, x.Splits r.before r.line.text ⟨r.pieces, r.after⟩ :=
  rowsFrom_split hx (k := .code) trivial d.lines

end CleanCopy.Lexicon
