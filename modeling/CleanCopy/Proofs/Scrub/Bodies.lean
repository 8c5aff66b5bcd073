import CleanCopy.Proofs.Scrub.Docstrings

namespace CleanCopy

open Piece

theorem Text.indent_indent_append (t : Text) {u : Text} (hu : u.indent = []) :
    Text.indent (t.indent ++ u) = t.indent := by
  have hgap : ∀ c ∈ t.indent, isGap c = true := fun c hc => List.mem_takeWhile_imp hc
  rw [indent, List.takeWhile_append_of_pos hgap, ← indent, hu, List.append_nil]

namespace NestedRow

variable {r l : NestedRow} {rest taken following above rows before after : List NestedRow}
  {slot : DocstringSlot} {cs : List Cut}

theorem Takes.notMem (h : Takes above r rest slot taken following) (hr : Running (r :: rest))
    (hout : l.row.after.inLiteral = false) (hcolon : l.text.trimEnd.getLast? = some ':') :
    l ∉ taken := by
  obtain ⟨init, last, rfl, ho, hquote⟩ := h.ends_in_quote hr
  intro hl
  rcases List.mem_append.mp hl with hl | hl
  · exact absurd (hout.symm.trans (ho l hl)) Bool.false_ne_true
  · obtain rfl := List.mem_singleton.mp hl
    rw [hcolon] at hquote
    rcases hquote with h | h <;> cases h

/-- A row that ends code in a colon stays, and the rows before and behind it become what they become. -/
theorem Cutting.exists_kept (h : Cutting above rows cs) (hr : Running rows)
    (hrows : rows = before ++ l :: after) (hout : l.row.after.inLiteral = false)
    (hcolon : l.text.trimEnd.getLast? = some ':') : ∃ cs₁ cs₂, cs = cs₁ ++ .kept l :: cs₂ ∧
      cs₁.flatMap Cut.rows = before ∧ Cutting (l :: (before.reverse ++ above)) after cs₂ := by
  induction h generalizing before with
  | done => simp at hrows
  | @kept above rest r cs stays later ih =>
    cases before with
    | nil =>
      obtain ⟨rfl, rfl⟩ := List.cons.inj hrows
      exact ⟨[], cs, rfl, rfl, later⟩
    | cons q before =>
      obtain ⟨rfl, hrest⟩ := List.cons.inj hrows
      obtain ⟨cs₁, cs₂, rfl, hbefore, hlater⟩ := ih (hr.of_isSuffix (List.suffix_cons ..)) hrest
      refine ⟨.kept r :: cs₁, cs₂, rfl, congrArg (r :: ·) hbefore, ?_⟩
      simpa using hlater
  | @removed above rest taken following r slot cs goes later ih =>
    have hl := goes.notMem hr hout hcolon
    obtain ⟨-, -, -, -, -, -, htaken, -⟩ := docstring?_eq_some goes.docstring
    rw [htaken] at hrows
    obtain ⟨as, rfl, hlater⟩ : ∃ as, before = taken ++ as ∧ following = as ++ l :: after := by
      rcases List.append_eq_append_iff.mp hrows with h | ⟨bs, hbs, hlater⟩
      · exact h
      · cases bs with
        | nil => exact ⟨[], by rw [hbs, List.append_nil, List.append_nil], hlater.symm⟩
        | cons b bs =>
          obtain ⟨rfl, -⟩ := List.cons.inj hlater
          exact absurd (hbs ▸ List.mem_append_right before List.mem_cons_self) hl
    obtain ⟨cs₁, cs₂, rfl, hbefore, hcut⟩ :=
      ih (hr.of_isSuffix (docstring?_isSuffix goes.docstring)) hlater
    refine ⟨.removed taken (r.placeholder slot following) :: cs₁, cs₂, rfl,
      congrArg (taken ++ ·) hbefore, ?_⟩
    simpa using hcut

theorem Takes.not_isBlank (h : Takes above r rest slot taken following)
    (hr : r.row.Read .python) : r.isBlank = false := by
  obtain ⟨t, more, -, -, hq, -⟩ := docstring?_eq_some h.docstring
  obtain ⟨c, hc, hquote⟩ : ∃ c ∈ t, CleanCopy.isBlank c = false := by
    rcases Bool.or_eq_true_iff.mp hq.triple with ht | ht <;> rw [Lexicon.drop_of_startsWith ht]
    · exact ⟨'\"', by simp, rfl⟩
    · exact ⟨'\'', by simp, rfl⟩
  obtain ⟨mark, hmark⟩ := hq.exists_append
  rw [isBlank, Line.isBlank, ← hr.spells, hmark, wording_append, wording_cons, Bool.eq_false_iff]
  intro hb
  have := Text.isBlank_iff.mp hb c (List.mem_append_right _ (List.mem_append_left _ hc))
  exact Bool.false_ne_true (hquote.symm.trans this)

theorem Cutting.blank_append {blanks : List NestedRow} (h : Cutting above (blanks ++ rows) cs)
    (hr : Running (blanks ++ rows)) (hb : ∀ q ∈ blanks, q.isBlank = true) :
    ∃ cs', cs = blanks.map .kept ++ cs' ∧ Cutting (blanks.reverse ++ above) rows cs' := by
  induction blanks generalizing above cs with
  | nil => exact ⟨cs, rfl, h⟩
  | cons q blanks ih =>
    obtain ⟨hq, hb⟩ := List.forall_mem_cons.mp hb
    have htail : Running (blanks ++ rows) := hr.of_isSuffix (List.suffix_cons q _)
    cases h with
    | kept stays later =>
      obtain ⟨cs', rfl, hcut⟩ := ih later htail hb
      exact ⟨cs', rfl, by simpa using hcut⟩
    | removed goes _ =>
      have := goes.not_isBlank (hr.read q List.mem_cons_self)
      exact absurd (this.symm.trans hq) Bool.false_ne_true

theorem find?_blanks {blanks : List NestedRow} (hb : ∀ q ∈ blanks, q.isBlank = true)
    (cs : List Cut) : ((blanks.map Cut.kept ++ cs).flatMap Cut.lines).find? (!·.isBlank) =
      (cs.flatMap Cut.lines).find? (!·.isBlank) := by
  have hnone : ((blanks.map Cut.kept).flatMap Cut.lines).find? (!·.isBlank) = none := by
    rw [List.find?_eq_none, List.flatMap_map]
    intro m hm
    obtain ⟨q, hq, hm⟩ := List.mem_flatMap.mp hm
    obtain rfl := List.mem_singleton.mp hm
    simp [show q.row.line.isBlank = true from hb q hq]
  rw [List.flatMap_append, List.find?_append, hnone, Option.none_or]

theorem exists_blanks (hf : rows.find? (!·.isBlank) = some r) :
    r.isBlank = false ∧ ∃ blanks later, rows = blanks ++ r :: later ∧
      ∀ q ∈ blanks, q.isBlank = true := by
  obtain ⟨hv, blanks, later, rfl, hb⟩ := List.find?_eq_some_iff_append.mp hf
  exact ⟨by simpa using hv, blanks, later, rfl, fun q hq => by simpa using hb q hq⟩

/-- Where no block begins, the first visible row stays. -/
theorem Cutting.find?_of_shut (h : Cutting above rows cs) (hr : Running rows) (hs : Shut above)
    (hf : rows.find? (!·.isBlank) = some r) :
    (cs.flatMap Cut.lines).find? (!·.isBlank) = some r.row.line := by
  obtain ⟨hv, blanks, later, rfl, hb⟩ := exists_blanks hf
  obtain ⟨cs', rfl, hcut⟩ := h.blank_append hr hb
  have hshut : Shut (blanks.reverse ++ above) := by
    obtain ⟨last, earlier, hd, hlast⟩ := hs
    refine ⟨last, earlier, ?_, hlast⟩
    rw [List.dropWhile_append_of_pos (by simpa using hb), hd]
  cases hcut with
  | kept _ _ =>
    rw [find?_blanks hb]
    exact List.find?_cons_of_pos (by rw [show r.row.line.isBlank = false from hv]; rfl)
  | removed goes _ => exact absurd goes hshut.not_takes

theorem slot?_eq_block {blanks : List NestedRow} {opener : NestedRow}
    (hb : ∀ q ∈ blanks, q.isBlank = true) (hl : l.isBlank = false)
    (hopener : (l :: above).find? (·.depth = 0) = some opener)
    (h : slot? (blanks.reverse ++ l :: above) r = some slot) : slot = .block opener.text := by
  rw [slot?, List.dropWhile_append_of_pos (by simpa using hb),
    List.dropWhile_cons_of_neg (by simp [hl])] at h
  simp only [hopener] at h
  split at h
  · split at h
    · exact (Option.some.inj h).symm
    · cases h
  · cases h

/-- A first visible row that is deeper than the opener of its block leaves a line that is. -/
theorem Cutting.exists_body {opener : NestedRow} {next : NestedRow}
    (h : Cutting (l :: above) after cs) (hr : Running after) (hl : l.isBlank = false)
    (hopener : (l :: above).find? (·.depth = 0) = some opener)
    (hnext : after.find? (!·.isBlank) = some next)
    (hdeeper : opener.text.indent.length < next.text.indent.length) :
    ∃ body, (cs.flatMap Cut.lines).find? (!·.isBlank) = some body ∧
      opener.text.indent.length < body.text.indent.length := by
  obtain ⟨hv, blanks, later, rfl, hb⟩ := exists_blanks hnext
  obtain ⟨cs', rfl, hcut⟩ := h.blank_append hr hb
  rw [find?_blanks hb]
  cases hcut with
  | kept _ _ =>
    refine ⟨next.row.line, List.find?_cons_of_pos ?_, hdeeper⟩
    rw [show next.row.line.isBlank = false from hv]
    rfl
  | @removed _ _ taken following _ slot cs' goes hcut =>
    have hrunning : Running (next :: later) := hr.of_isSuffix (List.suffix_append blanks _)
    obtain rfl := slot?_eq_block hb hl hopener goes.stands
    rw [List.flatMap_cons, Cut.lines, placeholder]
    cases hends : endsBlock opener.text following with
    | true =>
      rw [if_pos rfl]
      refine ⟨_, List.find?_cons_of_pos ?_, ?_⟩
      · have hpass : Text.isBlank "pass".toList = false := by decide
        rw [Line.isBlank, Line.withText, Text.isBlank_append, hpass, Bool.and_false]
        rfl
      · rw [Line.withText, Text.indent_indent_append _ (by decide)]
        exact hdeeper
    | false =>
      rw [if_neg Bool.false_ne_true, List.nil_append]
      rw [endsBlock] at hends
      split at hends
      · cases hends
      · rename_i q hq
        have hfollowing := hrunning.of_isSuffix (docstring?_isSuffix goes.docstring)
        exact ⟨q.row.line, hcut.find?_of_shut hfollowing (goes.shut hrunning) hq,
          Nat.lt_of_not_le (of_decide_eq_false hends)⟩

end NestedRow

namespace Document

open NestedRow

/-- Behind a row that ends code in a colon, a first visible row that is deeper than the beginning of
the statement leaves a first visible line that is: a block does not lose its body. That the statement
opens a block is not asked for, as no docstring is looked for behind others. -/
theorem removeDocstrings_keeps_body (d : Document) {before after : List NestedRow}
    {l opener next : NestedRow}
    (hrows : ofRows 0 (Lexicon.python.rows d) = before ++ l :: after)
    (hout : l.row.after.inLiteral = false) (hcolon : l.text.trimEnd.getLast? = some ':')
    (hopener : (l :: before.reverse).find? (·.depth = 0) = some opener)
    (hnext : after.find? (!·.isBlank) = some next)
    (hdeeper : opener.text.indent.length < next.text.indent.length) :
    ∃ cs₁ cs₂, Cutting [] (ofRows 0 (Lexicon.python.rows d)) (cs₁ ++ .kept l :: cs₂) ∧
      cs₁.flatMap Cut.rows = before ∧ cs₂.flatMap Cut.rows = after ∧
      d.removeDocstrings.lines =
        cs₁.flatMap Cut.lines ++ l.row.line :: cs₂.flatMap Cut.lines ∧
      ∃ body, (cs₂.flatMap Cut.lines).find? (!·.isBlank) = some body ∧
        opener.text.indent.length < body.text.indent.length := by
  obtain ⟨cs, hcs, hlines⟩ := exists_cutting [] (ofRows 0 (Lexicon.python.rows d))
  have hr := Lexicon.running_rows d
  obtain ⟨cs₁, cs₂, rfl, hbefore, hcut⟩ := hcs.exists_kept hr hrows hout hcolon
  rw [List.append_nil] at hcut
  refine ⟨cs₁, cs₂, hcs, hbefore, hcut.flatMap_rows, ?_, ?_⟩
  · change withoutDocstrings _ _ = _
    rw [← hlines, List.flatMap_append, List.flatMap_cons]
    rfl
  · refine hcut.exists_body ?_ (not_isBlank_of_getLast? hcolon) hopener hnext hdeeper
    exact hr.of_isSuffix (hrows ▸ (List.suffix_cons l after).trans (List.suffix_append before _))

/-- A signature over two lines, and a body that is one docstring over two lines. -/
theorem removeDocstrings_keeps_body_of_signature :
    let d := parse "def f(\n  a):\n\n  '''one\n  two'''\nx\n".toList
    let rows := ofRows 0 (Lexicon.python.rows d)
    let quotes := ['\'', '\'', '\'']
    let opener : NestedRow :=
      ⟨⟨⟨"def f(".toList, false⟩, .code, [.code "def f(".toList], .code⟩, 0⟩
    let l : NestedRow := ⟨⟨⟨"  a):".toList, false⟩, .code, [.code "  a):".toList], .code⟩, 1⟩
    let next : NestedRow := ⟨⟨⟨"  '''one".toList, false⟩, .code,
      [.code "  ".toList, .literal "'''one".toList],
      .literal (.spanning quotes quotes .backslash)⟩, 0⟩
    (rows = [opener] ++ l :: rows.drop 2 ∧ l.row.after.inLiteral = false ∧
      l.text.trimEnd.getLast? = some ':' ∧
      (l :: [opener].reverse).find? (·.depth = 0) = some opener ∧
      (rows.drop 2).find? (!·.isBlank) = some next ∧
      opener.text.indent.length < next.text.indent.length) ∧
    ∃ cs₁ cs₂, Cutting [] rows (cs₁ ++ .kept l :: cs₂) ∧ cs₁.flatMap Cut.rows = [opener] ∧
      cs₂.flatMap Cut.rows = rows.drop 2 ∧
      d.removeDocstrings.lines = cs₁.flatMap Cut.lines ++ l.row.line :: cs₂.flatMap Cut.lines ∧
      ∃ body, (cs₂.flatMap Cut.lines).find? (!·.isBlank) = some body ∧
        opener.text.indent.length < body.text.indent.length := by
  intro d rows quotes opener l next
  have h : rows = [opener] ++ l :: rows.drop 2 ∧ l.row.after.inLiteral = false ∧
      l.text.trimEnd.getLast? = some ':' ∧
      (l :: [opener].reverse).find? (·.depth = 0) = some opener ∧
      (rows.drop 2).find? (!·.isBlank) = some next ∧
      opener.text.indent.length < next.text.indent.length := by decide +kernel
  obtain ⟨hrows, hout, hcolon, hopener, hnext, hdeeper⟩ := h
  exact ⟨⟨hrows, hout, hcolon, hopener, hnext, hdeeper⟩,
    removeDocstrings_keeps_body d hrows hout hcolon hopener hnext hdeeper⟩

end Document

end CleanCopy
