import CleanCopy.Proofs.Scrub.Pass
import CleanCopy.Scrub.Docstrings

namespace CleanCopy

open Piece

/-- What becomes of rows: one stays, or some go, and lines are put in their place. -/
inductive Cut where
  | kept (r : NestedRow)
  | removed (taken : List NestedRow) (placed : List Line)
  deriving DecidableEq

namespace Cut

def rows : Cut → List NestedRow
  | kept r => [r]
  | removed taken _ => taken

def lines : Cut → List Line
  | kept r => [r.row.line]
  | removed _ placed => placed

def isRemoved : Cut → Bool
  | kept _ => false
  | removed _ _ => true

end Cut

/-- The pieces that begin in a row; what was open before it goes on in its first piece. -/
def Row.begun (r : Row) : List Piece := if r.before = .code then r.pieces else r.pieces.drop 1

namespace Piece

def isLiteral : Piece → Bool
  | literal _ => true
  | _ => false

/-- Pieces that begin with literal `t` in triple quotes, perhaps with a mark before it, and go on with
`more`. -/
inductive Quotes : List Piece → Text → List Piece → Prop
  | plain {t : Text} {more : List Piece} (triple : (literal t).isTripleQuoted = true) :
      Quotes (literal t :: more) t more
  | marked {m t : Text} {more : List Piece} (mark : m.isDocstringMark = true)
      (triple : (literal t).isTripleQuoted = true) : Quotes (code m :: literal t :: more) t more

/-- A literal in triple quotes that is a whole statement. -/
def IsDocstring (ps : List Piece) : Prop :=
  ∃ t more, Quotes ps t more ∧ more.all isBlankCode = true

variable {ps qs more : List Piece} {t : Text}

theorem exists_literal_of_isTripleQuoted {p : Piece} (h : p.isTripleQuoted = true) :
    ∃ t, p = literal t := by
  cases p with
  | code t => cases h
  | literal t => exact ⟨t, rfl⟩
  | comment cls t => cases h

/-- The pieces behind the literal that a docstring is looked for in. -/
theorem exists_quotes (h : (match ps with
      | .code mark :: p :: qs => if mark.isDocstringMark && p.isTripleQuoted then some qs else none
      | p :: qs => if p.isTripleQuoted then some qs else none
      | [] => none) = some more) : ∃ t, Quotes ps t more := by
  split at h
  · split at h
    · rename_i hm
      obtain ⟨hmark, htriple⟩ := Bool.and_eq_true_iff.mp hm
      obtain ⟨t, rfl⟩ := exists_literal_of_isTripleQuoted htriple
      exact ⟨t, Option.some.inj h ▸ .marked hmark htriple⟩
    · cases h
  · split at h
    · rename_i htriple
      obtain ⟨t, rfl⟩ := exists_literal_of_isTripleQuoted htriple
      exact ⟨t, Option.some.inj h ▸ .plain htriple⟩
    · cases h
  · cases h

theorem Quotes.append (h : Quotes ps t more) (qs : List Piece) : Quotes (ps ++ qs) t (more ++ qs) := by
  cases h with
  | plain triple => exact .plain triple
  | marked mark triple => exact .marked mark triple

theorem Quotes.triple (h : Quotes ps t more) : (literal t).isTripleQuoted = true := by
  cases h <;> assumption

theorem Quotes.exists_append (h : Quotes ps t more) : ∃ mark, ps = mark ++ literal t :: more := by
  cases h with
  | plain triple => exact ⟨[], rfl⟩
  | @marked m _ _ mark triple => exact ⟨[code m], rfl⟩

theorem Quotes.isSuffix (h : Quotes ps t more) : more <:+ ps := by
  obtain ⟨mark, rfl⟩ := h.exists_append
  exact ⟨mark ++ [literal t], by simp⟩

theorem Quotes.countP (h : Quotes ps t more) : ps.countP isLiteral = more.countP isLiteral + 1 := by
  cases h with
  | plain triple => exact List.countP_cons_of_pos rfl
  | marked mark triple =>
    rw [List.countP_cons_of_neg (by simp [isLiteral])]
    exact List.countP_cons_of_pos rfl

theorem isLiteral_of_isBlankCode {p : Piece} (h : p.isBlankCode = true) : p.isLiteral = false := by
  cases p with
  | code t => rfl
  | literal t => cases h
  | comment cls t => cases h

theorem isBlank_wording (h : ps.all isBlankCode = true) : (wording ps).isBlank = true := by
  induction ps with
  | nil => rfl
  | cons p ps ih =>
    rw [List.all_cons, Bool.and_eq_true] at h
    rw [wording_cons, Text.isBlank_append, ih h.2, Bool.and_true]
    cases p with
    | code t => exact h.1
    | literal t => cases h.1
    | comment cls t => cases h.1

theorem countP_of_blank (h : ps.all isBlankCode = true) : ps.countP isLiteral = 0 :=
  List.countP_eq_zero.mpr fun p hp => by
    simp [isLiteral_of_isBlankCode (List.all_eq_true.mp h p hp)]

/-- Behind the first literal of a docstring there is no other one. -/
theorem Quotes.isDocstring_iff (h : Quotes ps t more)
    (hblank : more.countP isLiteral = 0 → more.all isBlankCode = true) :
    IsDocstring ps ↔ ps.countP isLiteral = 1 := by
  rw [h.countP, Nat.add_eq_right]
  refine ⟨?_, fun hn => ⟨t, more, h, hblank hn⟩⟩
  rintro ⟨t', more', h', hblank'⟩
  have := h.countP.symm.trans h'.countP
  rw [countP_of_blank hblank'] at this
  exact Nat.add_right_cancel this

/-- No literal is left behind a place in pieces that end in one only if nothing is. -/
theorem eq_nil_of_suffix (h : qs <:+ ps ++ [literal t]) (hn : qs.countP isLiteral = 0) : qs = [] := by
  by_contra hne
  have hlast : qs.getLast hne = literal t := by
    rw [List.IsSuffix.getLast h hne, List.getLast_concat]
  have := List.countP_eq_zero.mp hn _ (List.getLast_mem hne)
  rw [hlast] at this
  exact this rfl

end Piece

namespace NestedRow

/-- The rows of a Python text, each beginning with what the one before leaves open. -/
structure Running (rows : List NestedRow) : Prop where
  read : ∀ r ∈ rows, r.row.Read .python
  linked : rows.IsChain fun r s => s.row.before = r.row.after

variable {r : NestedRow} {rest taken following above rows : List NestedRow} {slot : DocstringSlot}

theorem Running.of_isSuffix (h : Running rows) {later : List NestedRow} (hs : later <:+ rows) :
    Running later :=
  ⟨fun r hr => h.read r (hs.subset hr), List.IsChain.suffix h.linked hs⟩

theorem map_row_ofRows (depth : Nat) (rs : List Row) : (ofRows depth rs).map row = rs := by
  induction rs generalizing depth with
  | nil => rfl
  | cons r rs ih => exact congrArg (r :: ·) (ih _)

theorem docstring?_eq_some (h : r.docstring? rest = some (taken, following)) :
    ∃ t more init last, Quotes r.row.pieces t more ∧ taken = init ++ [last] ∧
      r :: rest = taken ++ following ∧ (∀ q ∈ init, q.row.after.inLiteral = true) ∧
      last.row.after.inLiteral = false ∧
      (init = [] → more.all isBlankCode = true) ∧
      (init ≠ [] → (last.row.pieces.drop 1).all isBlankCode = true) := by
  simp only [docstring?] at h
  split at h
  · cases h
  · rename_i tail htail
    obtain ⟨t, hq⟩ := exists_quotes htail
    split at h
    · rename_i ho
      split at h
      · cases h
      · rename_i last later hd
        split at h
        · rename_i hb
          obtain ⟨rfl, rfl⟩ := Prod.mk.inj (Option.some.inj h)
          refine ⟨t, tail, r :: rest.takeWhile (·.row.after.inLiteral), last, hq, rfl, ?_, ?_, ?_, nofun,
            fun _ => hb⟩
          · rw [List.append_assoc, List.cons_append, List.singleton_append, ← hd,
              List.takeWhile_append_dropWhile]
          · exact List.forall_mem_cons.mpr ⟨ho, fun q hq =>
              List.mem_takeWhile_imp (p := fun q : NestedRow => q.row.after.inLiteral) hq⟩
          · have := List.head?_dropWhile_not (fun r : NestedRow => r.row.after.inLiteral) rest
            rw [hd] at this
            simpa using this
        · cases h
    · rename_i ho
      split at h
      · rename_i hb
        obtain ⟨rfl, rfl⟩ := Prod.mk.inj (Option.some.inj h)
        exact ⟨t, tail, [], r, hq, rfl, rfl, nofun, by simpa using ho, fun _ => hb, fun h => absurd rfl h⟩
      · cases h

theorem docstring?_isSuffix (h : r.docstring? rest = some (taken, following)) :
    following <:+ r :: rest := by
  obtain ⟨-, -, -, -, -, -, hrows, -⟩ := docstring?_eq_some h
  exact hrows ▸ List.suffix_append taken following

theorem placeholder_eq (slot : DocstringSlot) (r : NestedRow) (rest : List NestedRow) :
    r.placeholder slot rest = [] ∨
      r.placeholder slot rest = [r.row.line.withText (r.text.indent ++ "pass".toList)] := by
  cases slot with
  | module => exact .inl rfl
  | block opener =>
    rw [placeholder]
    split
    · exact .inr rfl
    · exact .inl rfl

/-- Row `r` begins a docstring that takes rows from here on. -/
structure Takes (above : List NestedRow) (r : NestedRow) (rest : List NestedRow)
    (slot : DocstringSlot) (taken following : List NestedRow) : Prop where
  outside : r.row.before = .code
  stands : slot? above r = some slot
  docstring : r.docstring? rest = some (taken, following)

/-- What the removal of docstrings makes of rows; `above` holds the rows already passed, nearest
first. -/
inductive Cutting : (above rows : List NestedRow) → List Cut → Prop
  | done (above : List NestedRow) : Cutting above [] []
  | kept {above rest : List NestedRow} {r : NestedRow} {cs : List Cut}
      (stays : ∀ slot taken following, ¬ Takes above r rest slot taken following)
      (later : Cutting (r :: above) rest cs) : Cutting above (r :: rest) (.kept r :: cs)
  | removed {above rest taken following : List NestedRow} {r : NestedRow} {slot : DocstringSlot}
      {cs : List Cut} (goes : Takes above r rest slot taken following)
      (later : Cutting (taken.reverse ++ above) following cs) :
      Cutting above (r :: rest) (.removed taken (r.placeholder slot following) :: cs)

theorem exists_cutting (above rows : List NestedRow) :
    ∃ cs, Cutting above rows cs ∧ cs.flatMap Cut.lines = withoutDocstrings above rows := by
  fun_induction withoutDocstrings above rows with
  | case1 above => exact ⟨[], .done above, rfl⟩
  | case2 above r rest hslot ih =>
    obtain ⟨cs, hcs, hlines⟩ := ih
    refine ⟨.kept r :: cs, .kept (fun slot taken following h => ?_) hcs, congrArg _ hlines⟩
    rw [dif_pos h.outside, h.stands] at hslot
    cases hslot
  | case3 above r rest slot _ hnone ih =>
    obtain ⟨cs, hcs, hlines⟩ := ih
    refine ⟨.kept r :: cs, .kept (fun slot taken following h => ?_) hcs, congrArg _ hlines⟩
    cases hnone.symm.trans h.docstring
  | case4 above r rest slot hslot taken following hd _ ih =>
    obtain ⟨cs, hcs, hlines⟩ := ih
    have hb : r.row.before = .code := by
      by_contra hb
      rw [dif_neg hb] at hslot
      cases hslot
    rw [dif_pos hb] at hslot
    exact ⟨_, .removed ⟨hb, hslot, hd⟩ hcs, congrArg (r.placeholder slot following ++ ·) hlines⟩

theorem Cutting.flatMap_rows {cs : List Cut} (h : Cutting above rows cs) :
    cs.flatMap Cut.rows = rows := by
  induction h with
  | done => rfl
  | kept _ _ ih => exact congrArg (_ :: ·) ih
  | removed goes _ ih =>
    obtain ⟨-, -, -, -, -, -, hrows, -⟩ := docstring?_eq_some goes.docstring
    rw [hrows, ← ih]
    rfl

theorem mem_withoutDocstrings {l : Line} (h : l ∈ withoutDocstrings above rows) :
    ∃ r ∈ rows, l = r.row.line ∨ l = r.row.line.withText (r.text.indent ++ "pass".toList) := by
  obtain ⟨cs, hcs, hlines⟩ := exists_cutting above rows
  rw [← hlines] at h
  clear hlines
  induction hcs with
  | done => cases h
  | kept _ _ ih =>
    rcases List.mem_cons.mp h with rfl | h
    · exact ⟨_, List.mem_cons_self, .inl rfl⟩
    · obtain ⟨q, hq, hl⟩ := ih h
      exact ⟨q, List.mem_cons_of_mem _ hq, hl⟩
  | @removed _ rest _ following r slot _ goes _ ih =>
    rcases List.mem_append.mp h with h | h
    · refine ⟨r, List.mem_cons_self, .inr ?_⟩
      rcases placeholder_eq slot r following with he | he <;> rw [Cut.lines, he] at h
      · cases h
      · exact List.mem_singleton.mp h
    · obtain ⟨q, hq, hl⟩ := ih h
      exact ⟨q, (docstring?_isSuffix goes.docstring).subset hq, hl⟩

end NestedRow

namespace Lexicon

open NestedRow

variable {t : Text} {odd : Bool} {k : Carry} {more : List Piece} {x : Lexicon}

theorem rowsFrom_linked (x : Lexicon) (k : Carry) (ls : List Line) :
    (x.rowsFrom k ls).IsChain fun r s => s.before = r.after := by
  induction ls generalizing k with
  | nil => exact .nil
  | cons l ls ih =>
    refine (ih _).cons fun s hs => ?_
    cases ls with
    | nil => cases hs
    | cons m ms => exact Option.some.inj hs ▸ rfl

theorem running_rows (d : Document) : Running (ofRows 0 (python.rows d)) where
  read r hr := by
    refine python.rows_read python_regular.filled d _ ?_
    rw [← map_row_ofRows 0 (python.rows d)]
    exact List.mem_map_of_mem hr
  linked := by
    have := rowsFrom_linked python .code d.lines
    rwa [← rows, ← map_row_ofRows 0 (python.rows d), List.isChain_map] at this

theorem getLast?_of_sealed (h : python.Sealed (.literal t)) :
    t.getLast? = some '\"' ∨ t.getLast? = some '\'' := by
  generalize hp : Piece.literal t = p at h
  cases h with
  | comment => cases hp
  | literal d hd head =>
    obtain rfl := Piece.literal.inj hp
    simp only [python, List.mem_cons, List.not_mem_nil, or_false] at hd
    rcases hd with rfl | rfl | rfl | rfl <;> simp [Delimiter.spanning, Delimiter.quote]

/-- Only a literal that may span lines begins with three quotes. -/
theorem python_multiline {d : Delimiter} (ht : (Piece.literal t).isTripleQuoted = true)
    (h : python.token? t = some (.literal d)) : d.multiline = true := by
  cases t with
  | nil => cases h
  | cons c cs =>
    rw [isTripleQuoted, startsWith_cons_cons, startsWith_cons_cons, Bool.or_eq_true, Bool.and_eq_true,
      Bool.and_eq_true, decide_eq_true_eq, decide_eq_true_eq] at ht
    rw [python_token?_cons] at h
    rcases ht with ⟨rfl, hq⟩ | ⟨rfl, hq⟩
    · rw [if_neg (by decide), if_pos rfl, if_pos hq] at h
      exact Token.literal.inj (Option.some.inj h) ▸ rfl
    · rw [if_neg (by decide), if_neg (by decide), if_pos rfl, if_pos hq] at h
      exact Token.literal.inj (Option.some.inj h) ▸ rfl

/-- A literal in triple quotes is closed or left open by its row. -/
theorem Reads.sealed_of_triple (h : python.Reads odd (.literal t :: more) k)
    (ht : (Piece.literal t).isTripleQuoted = true) (hk : k.inLiteral = false) :
    python.Sealed (.literal t) := by
  cases h with
  | closed first _ => exact sealed_of_lexeme? first
  | unclosed last =>
    obtain ⟨-, ⟨c, -, hp, -⟩ | ⟨c, opener, body, -, -, -, -, hp, -⟩ |
      ⟨d, -, body, htok, -, -, -, hcarry⟩⟩ := lexeme?_eq_unclosed last
    · cases hp
    · cases hp
    · rw [hcarry, if_pos (python_multiline ht htok)] at hk
      cases hk

end Lexicon

namespace NestedRow

open Lexicon

variable {r : NestedRow} {rest taken following above rows : List NestedRow} {slot : DocstringSlot}
  {cs : List Cut}

/-- Behind rows that leave a literal open, a row begins within it. -/
theorem Running.inLiteral {init : List NestedRow} (h : Running (init ++ r :: rest))
    (ho : ∀ q ∈ init, q.row.after.inLiteral = true) :
    ∀ q ∈ (init ++ [r]).tail, q.row.before.inLiteral = true := by
  induction init with
  | nil => exact nofun
  | cons p ps ih =>
    have ih := ih (h.of_isSuffix (List.suffix_cons ..)) fun q hq => ho q (List.mem_cons_of_mem p hq)
    have hp := ho p List.mem_cons_self
    intro q hq
    cases ps with
    | nil =>
      obtain rfl := List.mem_singleton.mp hq
      rw [(List.isChain_cons_cons.mp h.linked).1]
      exact hp
    | cons p' ps =>
      rcases List.mem_cons.mp hq with rfl | hq
      · rw [(List.isChain_cons_cons.mp h.linked).1]
        exact hp
      · exact ih q hq

/-- What a row goes on with from the row before is all that it holds, if no literal begins in it and
it leaves one open. -/
theorem begun_eq_nil (hr : r.row.Read .python) (hb : r.row.before.inLiteral = true)
    (ha : r.row.after.inLiteral = true) (hn : r.row.begun.countP isLiteral = 0) :
    r.row.begun = [] := by
  obtain ⟨qs, t, hps, -⟩ := hr.begins.exists_concat_literal python_regular ha
  have hne : r.row.before ≠ .code := fun hc => by rw [hc] at hb; cases hb
  rw [Row.begun, if_neg hne, hps] at hn ⊢
  exact eq_nil_of_suffix (List.drop_suffix 1 _) hn

/-- A row that begins within a literal and closes it begins with its rest. -/
theorem sealed_of_inLiteral (hr : r.row.Read .python) (hb : r.row.before.inLiteral = true)
    (ha : r.row.after.inLiteral = false) :
    ∃ t qs, r.row.pieces = .literal t :: qs ∧ python.Sealed (.literal t) := by
  have hbegins := hr.begins
  generalize r.row.before = k, r.row.pieces = ps, r.row.after = k' at hb ha hbegins
  cases hbegins with
  | code => cases hb
  | unclosed => exact absurd (ha.symm.trans hb) Bool.false_ne_true
  | @closed _ _ p ps fits first later =>
    cases k with
    | code | block => cases hb
    | literal d =>
      obtain ⟨inner, rfl, -⟩ := literalRest_eq_closed (Option.some.inj first)
      exact ⟨_, ps, rfl, sealed_of_resume? fits first⟩

theorem sealed_of_quotes {t : Text} {more : List Piece} (hr : r.row.Read .python)
    (hb : r.row.before = .code) (ha : r.row.after.inLiteral = false)
    (h : Quotes r.row.pieces t more) : python.Sealed (.literal t) := by
  have hbegins := hr.begins
  generalize r.row.before = k, r.row.pieces = ps, r.row.after = k' at hb ha h hbegins
  cases hbegins with
  | code hreads =>
    cases h with
    | plain triple => exact hreads.sealed_of_triple triple ha
    | marked mark triple => exact (reads_code_iff.mp hreads).2.sealed_of_triple triple ha
  | closed _ first _ => rw [hb] at first; cases first
  | unclosed _ last => rw [hb] at last; cases last

/-- The last row of a docstring holds the end of a literal and nothing visible behind it. -/
theorem Takes.closes (h : Takes above r rest slot taken following) (hr : Running (r :: rest)) :
    ∃ init last, taken = init ++ [last] ∧ (∀ q ∈ init, q.row.after.inLiteral = true) ∧
      last.row.after.inLiteral = false ∧ last.row.Read .python ∧ ∃ ps t qs,
        last.row.pieces = ps ++ .literal t :: qs ∧ python.Sealed (.literal t) ∧
          qs.all isBlankCode = true ∧ (init ≠ [] → ps = []) := by
  obtain ⟨t, more, init, last, hq, rfl, hrows, ho, ha, hshort, hlong⟩ :=
    docstring?_eq_some h.docstring
  rw [List.append_assoc, List.singleton_append] at hrows
  have hread : last.row.Read .python := hr.read last (hrows ▸ by simp)
  refine ⟨init, last, rfl, ho, ha, hread, ?_⟩
  have hbefore (hinit : init ≠ []) : last.row.before.inLiteral = true := by
    refine (hrows ▸ hr).inLiteral ho last ?_
    rw [List.tail_append_of_ne_nil hinit]
    exact List.mem_append_right _ List.mem_cons_self
  by_cases hinit : init = []
  · rw [hinit] at hrows
    obtain ⟨rfl, -⟩ := List.cons.inj hrows
    obtain ⟨mark, hmark⟩ := hq.exists_append
    exact ⟨mark, t, more, hmark, sealed_of_quotes hread h.outside ha hq, hshort hinit,
      fun hne => absurd hinit hne⟩
  · obtain ⟨u, qs, hps, hs⟩ := sealed_of_inLiteral hread (hbefore hinit) ha
    have hblank := hlong hinit
    rw [hps] at hblank
    exact ⟨[], u, qs, hps, hs, hblank, fun _ => rfl⟩

theorem not_isBlank_of_getLast? {c : Char} (h : r.text.trimEnd.getLast? = some c) :
    r.isBlank = false := by
  rw [isBlank, Line.isBlank, Bool.eq_false_iff, Ne, ← Text.trimEnd_eq_nil_iff]
  intro hnil
  rw [text, hnil] at h
  cases h

/-- The last visible row above does not end in a colon, so that no block begins here. -/
def Shut (above : List NestedRow) : Prop :=
  ∃ last earlier, above.dropWhile isBlank = last :: earlier ∧ last.text.trimEnd.getLast? ≠ some ':'

theorem Shut.slot? (h : Shut above) (r : NestedRow) : slot? above r = none := by
  obtain ⟨last, earlier, hd, hlast⟩ := h
  rw [NestedRow.slot?, hd]
  simp only [hlast, decide_false, Bool.and_false, Bool.false_eq_true, if_false]

theorem Shut.not_takes (h : Shut above) : ¬ Takes above r rest slot taken following := fun ht => by
  cases (h.slot? r).symm.trans ht.stands

/-- What is visible of a docstring ends in a quote. -/
theorem Takes.ends_in_quote (h : Takes above r rest slot taken following)
    (hr : Running (r :: rest)) : ∃ init last, taken = init ++ [last] ∧
      (∀ q ∈ init, q.row.after.inLiteral = true) ∧
        (last.text.trimEnd.getLast? = some '\"' ∨ last.text.trimEnd.getLast? = some '\'') := by
  obtain ⟨init, last, rfl, ho, -, hread, ps, t, qs, hps, hs, hblank, -⟩ := h.closes hr
  refine ⟨init, last, rfl, ho, ?_⟩
  have hquote := getLast?_of_sealed hs
  have hne : t ≠ [] := by
    rintro rfl
    rcases hquote with h | h <;> cases h
  have hend : (wording ps ++ t).getLast? = t.getLast? := List.getLast?_append_of_ne_nil _ hne
  have htext : last.text.trimEnd = wording ps ++ t := by
    rw [text, ← hread.spells, hps, wording_append, wording_cons, ← List.append_assoc,
      Text.trimEnd_append_of_blank _ (isBlank_wording hblank)]
    refine Text.trimEnd_eq_self_of_getLast? fun c hc => ?_
    rcases hquote with h | h <;>
    · obtain rfl := Option.some.inj ((hc.symm.trans hend).trans h)
      rfl
  rw [htext, hend]
  exact hquote

/-- No block begins behind a docstring. -/
theorem Takes.shut (h : Takes above r rest slot taken following) (hr : Running (r :: rest)) :
    Shut (taken.reverse ++ above) := by
  obtain ⟨init, last, rfl, -, hquote⟩ := h.ends_in_quote hr
  refine ⟨last, init.reverse ++ above, ?_, ?_⟩
  · have hvisible : last.isBlank = false := hquote.elim not_isBlank_of_getLast? not_isBlank_of_getLast?
    rw [List.reverse_append, List.reverse_singleton, List.singleton_append, List.cons_append,
      List.dropWhile_cons_of_neg (by simp [hvisible])]
  · rcases hquote with h | h <;> simp [h]

/-- Between docstrings a row stays. -/
theorem Cutting.isChain (h : Cutting above rows cs) (hr : Running rows) :
    cs.IsChain fun c c' => c.isRemoved = true → c'.isRemoved = false := by
  induction h with
  | done => exact .nil
  | kept _ _ ih =>
    exact (ih (hr.of_isSuffix (List.suffix_cons ..))).cons fun _ _ h => absurd h Bool.false_ne_true
  | removed goes later ih =>
    refine (ih (hr.of_isSuffix (docstring?_isSuffix goes.docstring))).cons fun c hc _ => ?_
    cases later with
    | done => cases hc
    | kept => exact Option.some.inj hc ▸ rfl
    | removed goes' => exact absurd goes' (goes.shut hr).not_takes

/-- Rows that are taken out, and what is put in their place. -/
structure Removal (taken : List NestedRow) (placed : List Line) : Prop where
  begins : ∃ first, taken.head? = some first ∧ first.row.before = .code ∧
    (placed = [] ∨ placed = [first.row.line.withText (first.text.indent ++ "pass".toList)])
  quotes : ∃ t more, Quotes (taken.flatMap (·.row.begun)) t more
  runs : ∃ init last, taken = init ++ [last] ∧ (∀ q ∈ init, q.row.after.inLiteral = true) ∧
    last.row.after.inLiteral = false ∧ ∃ ps t qs, last.row.pieces = ps ++ .literal t :: qs ∧
      qs.all isBlankCode = true ∧ (init ≠ [] → ps = [])
  docstring : IsDocstring (taken.flatMap (·.row.begun)) ↔
    (taken.flatMap (·.row.begun)).countP isLiteral = 1

/-- Where no literal begins behind the first one, the rows that go on with it hold nothing else, and
nothing visible stands behind its end. -/
theorem blank_of_countP {init tail : List NestedRow} {last : NestedRow} {t : Text}
    {more : List Piece} (htail : init ++ [last] = r :: tail)
    (hread : ∀ q ∈ init ++ [last], q.row.Read .python)
    (ho : ∀ q ∈ init, q.row.after.inLiteral = true)
    (hbefore : ∀ q ∈ (init ++ [last]).tail, q.row.before.inLiteral = true)
    (hq : Quotes r.row.pieces t more) (hshort : init = [] → more.all isBlankCode = true)
    (hlong : init ≠ [] → (last.row.pieces.drop 1).all isBlankCode = true)
    (hn : (more ++ tail.flatMap (·.row.begun)).countP isLiteral = 0) :
    (more ++ tail.flatMap (·.row.begun)).all isBlankCode = true := by
  rw [List.countP_append, Nat.add_eq_zero_iff] at hn
  rw [List.all_append, Bool.and_eq_true]
  by_cases hinit : init = []
  · rw [hinit] at htail
    rw [← (List.cons.inj htail).2]
    exact ⟨hshort hinit, rfl⟩
  obtain ⟨p, ps, rfl⟩ := List.exists_cons_of_ne_nil hinit
  obtain ⟨rfl, rfl⟩ := List.cons.inj htail
  constructor
  · obtain ⟨qs, u, hps, -⟩ := (hread p List.mem_cons_self).begins.exists_concat_literal
      python_regular (ho p List.mem_cons_self)
    rw [eq_nil_of_suffix (hps ▸ hq.isSuffix) hn.1]
    rfl
  · rw [List.all_flatMap, List.all_eq_true]
    intro q hmem
    have hb := hbefore q hmem
    rcases List.mem_append.mp hmem with hmem' | hmem'
    · have hzero : q.row.begun.countP isLiteral = 0 := List.countP_eq_zero.mpr fun a ha =>
        List.countP_eq_zero.mp hn.2 a (List.mem_flatMap.mpr ⟨q, hmem, ha⟩)
      rw [begun_eq_nil (hread q (List.mem_cons_of_mem _ hmem)) hb
        (ho q (List.mem_cons_of_mem _ hmem')) hzero]
      rfl
    · obtain rfl := List.mem_singleton.mp hmem'
      have hne : q.row.before ≠ .code := fun hc => by rw [hc] at hb; cases hb
      rw [Row.begun, if_neg hne]
      exact hlong hinit

theorem Takes.removal (h : Takes above r rest slot taken following) (hr : Running (r :: rest)) :
    Removal taken (r.placeholder slot following) := by
  obtain ⟨t, more, init, last, hq, rfl, hrows, ho, ha, hshort, hlong⟩ :=
    docstring?_eq_some h.docstring
  have hread (q : NestedRow) (hq : q ∈ init ++ [last]) : q.row.Read .python :=
    hr.read q (hrows ▸ List.mem_append_left _ hq)
  have hbefore : ∀ q ∈ (init ++ [last]).tail, q.row.before.inLiteral = true := by
    rw [List.append_assoc] at hrows
    exact (hrows ▸ hr).inLiteral ho
  obtain ⟨tail, htail⟩ : ∃ tail, init ++ [last] = r :: tail := by
    obtain ⟨a, tail, htail⟩ := List.exists_cons_of_ne_nil (List.append_ne_nil_of_right_ne_nil init
      (List.cons_ne_nil last []))
    rw [htail] at hrows
    exact ⟨tail, htail.trans (congrArg (· :: tail) (List.cons.inj hrows).1.symm)⟩
  have hbegun : (init ++ [last]).flatMap (·.row.begun) =
      r.row.pieces ++ tail.flatMap (·.row.begun) := by
    rw [htail, List.flatMap_cons, Row.begun, if_pos h.outside]
  have hquotes := hq.append (tail.flatMap (·.row.begun))
  rw [← hbegun] at hquotes
  constructor
  case begins =>
    exact ⟨r, by rw [htail]; rfl, h.outside, placeholder_eq slot r following⟩
  case quotes => exact ⟨t, _, hquotes⟩
  case runs =>
    obtain ⟨init', last', he, ho', ha', -, ps, u, qs, hps, -, hblank, hnil⟩ := h.closes hr
    exact ⟨init', last', he, ho', ha', ps, u, qs, hps, hblank, hnil⟩
  case docstring =>
    exact hquotes.isDocstring_iff (blank_of_countP htail hread ho hbefore hq hshort hlong)

theorem Cutting.removal (h : Cutting above rows cs) (hr : Running rows) (taken : List NestedRow)
    (placed : List Line) (hc : .removed taken placed ∈ cs) : Removal taken placed := by
  induction h with
  | done => cases hc
  | kept _ _ ih =>
    rcases List.mem_cons.mp hc with hc | hc
    · cases hc
    · exact ih (hr.of_isSuffix (List.suffix_cons ..)) hc
  | removed goes _ ih =>
    rcases List.mem_cons.mp hc with hc | hc
    · obtain ⟨rfl, rfl⟩ := Cut.removed.inj hc
      exact goes.removal hr
    · exact ih (hr.of_isSuffix (docstring?_isSuffix goes.docstring)) hc

end NestedRow

namespace Document

open NestedRow

/-- The removal of docstrings takes whole rows out, from one that begins with a literal in triple
quotes to the first one behind which no literal is open, and leaves `pass` or nothing there; all
other rows stay. What it takes out is a docstring just if only one literal begins in it. -/
theorem removeDocstrings_takes (d : Document) : ∃ cs : List Cut,
    cs.flatMap Cut.rows = ofRows 0 (Lexicon.python.rows d) ∧
      d.removeDocstrings = d.withLines (cs.flatMap Cut.lines) ∧
      (cs.IsChain fun c c' => c.isRemoved = true → c'.isRemoved = false) ∧
      ∀ taken placed, .removed taken placed ∈ cs → Removal taken placed := by
  obtain ⟨cs, hcs, hlines⟩ := exists_cutting [] (ofRows 0 (Lexicon.python.rows d))
  have hr := Lexicon.running_rows d
  refine ⟨cs, hcs.flatMap_rows, ?_, hcs.isChain hr, hcs.removal hr⟩
  rw [hlines]
  rfl

/-- Where the line that closes a docstring opens another literal, the code between them goes too. -/
theorem removeDocstrings_takes_code :
    let d := parse "\"\"\"a\"\"\"; x = \"\"\"b\nc\"\"\"\ny\n".toList
    d.removeDocstrings.lines = d.lines.drop 2 ∧
      ¬ IsDocstring (((Lexicon.python.rows d).take 2).flatMap Row.begun) := by
  refine ⟨by decide +kernel, fun ⟨t, more, hq, hblank⟩ => ?_⟩
  have hone := hq.countP
  rw [countP_of_blank hblank] at hone
  exact absurd hone (by decide +kernel)

end Document

end CleanCopy
