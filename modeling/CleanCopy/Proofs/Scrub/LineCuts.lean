import CleanCopy.Proofs.Lex.Opening
import CleanCopy.Proofs.Lex.Steady
import CleanCopy.Proofs.Scrub.Durable
import Mathlib.Data.List.Forall2
import Mathlib.Order.Monotone.Basic

namespace CleanCopy

open Piece

namespace Text

/-- The text begins with three quotes, perhaps with blanks and a mark before them. -/
def OpensDocstring (t : Text) : Prop :=
  ∃ mark rest : Text, t = mark ++ rest ∧ mark.isDocstringMark = true ∧
    (literal rest).isTripleQuoted = true

/-- Text behind a character that is no gap does not change the indentation. -/
theorem indent_append_of_not_gap {t : Text} {c : Char} (hc : c ∈ t) (hg : isGap c = false) (u : Text) :
    indent (t ++ u) = t.indent := by
  rw [indent, List.takeWhile_append, if_neg]
  · rfl
  · intro hlength
    have hall := List.takeWhile_eq_self_iff.mp (List.takeWhile_prefix isGap |>.eq_of_length hlength)
    exact Bool.false_ne_true (hg.symm.trans (hall c hc))

theorem exists_quote_of_isTripleQuoted {t : Text} (h : (literal t).isTripleQuoted = true) :
    ∃ c ∈ t, isGap c = false := by
  simp only [isTripleQuoted, Bool.or_eq_true, startsWith_iff] at h
  rcases h with ⟨u, rfl⟩ | ⟨u, rfl⟩
  · exact ⟨'\"', by simp, by decide⟩
  · exact ⟨'\'', by simp, by decide⟩

theorem isTripleQuoted_append {t : Text} (h : (literal t).isTripleQuoted = true) (u : Text) :
    (literal (t ++ u)).isTripleQuoted = true := by
  simp only [isTripleQuoted, Bool.or_eq_true, startsWith_iff] at h ⊢
  exact h.imp (·.trans (List.prefix_append t u)) (·.trans (List.prefix_append t u))

theorem OpensDocstring.append {t : Text} (h : t.OpensDocstring) (u : Text) :
    OpensDocstring (t ++ u) := by
  obtain ⟨mark, rest, rfl, hmark, htriple⟩ := h
  exact ⟨mark, rest ++ u, List.append_assoc .., hmark, isTripleQuoted_append htriple u⟩

theorem OpensDocstring.indent_append {t : Text} (h : t.OpensDocstring) (u : Text) :
    indent (t ++ u) = t.indent := by
  obtain ⟨mark, rest, rfl, -, htriple⟩ := h
  obtain ⟨c, hc, hg⟩ := exists_quote_of_isTripleQuoted htriple
  exact indent_append_of_not_gap (List.mem_append_right mark hc) hg u

end Text

theorem Piece.Quotes.opensDocstring {ps more : List Piece} {t : Text} (h : Quotes ps t more) :
    (wording ps).OpensDocstring := by
  cases h with
  | plain triple => exact ⟨[], _, rfl, rfl, Text.isTripleQuoted_append triple _⟩
  | @marked m _ _ mark triple => exact ⟨m, _, rfl, mark, Text.isTripleQuoted_append triple _⟩

/-- A line may lose the blanks at its end. -/
def Line.Trims (l' l : Line) : Prop := l' = l ∨ l' = l.withText l.text.trimEnd

instance : Std.Refl Line.Trims := ⟨fun _ => .inl rfl⟩

namespace Row

/-- Line `l` is a prefix of the row with the same line end, and what is cut off is blanks, perhaps
with a comment behind them that the row ends in. -/
structure CutTo (r : Row) (l : Line) : Prop where
  cr : l.cr = r.line.cr
  rest : ∃ b : Text, b.isBlank = true ∧ (l.text ++ b = r.line.text ∨
    ∃ ps u, r.pieces = ps ++ [.comment .plain ('#' :: u)] ∧ l.text ++ b ++ '#' :: u = r.line.text)

/-- Rows from one that begins with a literal in triple quotes to the first one behind which no literal
is open. -/
def HoldDocstring (rs : List Row) : Prop :=
  (∃ first, rs.head? = some first ∧ first.before = .code ∧ first.line.text.OpensDocstring) ∧
    ∃ init last, rs = init ++ [last] ∧ (∀ r ∈ init, r.after.inLiteral = true) ∧
      last.after.inLiteral = false

/-- A statement that does nothing, indented as the row is. -/
def idleLine (r : Row) : Line := r.line.withText (r.line.text.indent ++ "pass".toList)

/-- Lines that rows yield in order: a row goes or is cut, and where docstrings go, one line may stand
in the place of one. -/
inductive Yields (docs : Bool) : List Row → List Line → Prop
  | done : Yields docs [] []
  | gone {rs : List Row} {ls : List Line} (r : Row) (later : Yields docs rs ls) : Yields docs (r :: rs) ls
  | cut {r : Row} {rs : List Row} {l : Line} {ls : List Line} (h : r.CutTo l)
      (later : Yields docs rs ls) : Yields docs (r :: rs) (l :: ls)
  | idle {r : Row} {more rs : List Row} {ls : List Line} (asked : docs = true)
      (h : HoldDocstring (r :: more)) (later : Yields docs rs ls) :
      Yields docs (r :: more ++ rs) (r.idleLine :: ls)

/-- What line `l` is in the place of rows from `i` on and before `j`. -/
def Makes (docs : Bool) (rs : List Row) (i j : Nat) (l : Line) : Prop :=
  ∃ r, rs[i]? = some r ∧ (r.CutTo l ∨ docs = true ∧ l = r.idleLine ∧
    ∃ n, HoldDocstring ((rs.drop i).take n) ∧ i + n ≤ j)

variable {docs : Bool} {r : Row} {rs us : List Row} {l l' : Line} {ls ls' : List Line}

theorem CutTo.refl (r : Row) : r.CutTo r.line := ⟨rfl, [], rfl, .inl (List.append_nil _)⟩

theorem CutTo.trims (h : r.CutTo l) (hl : l'.Trims l) : r.CutTo l' := by
  rcases hl with rfl | rfl
  · exact h
  obtain ⟨b, hb, hrest⟩ := h.rest
  obtain ⟨b', hb', htrim⟩ := l.text.exists_trimEnd_append
  refine ⟨h.cr, b' ++ b, by rw [Text.isBlank_append, hb', hb]; rfl, ?_⟩
  change l.text.trimEnd ++ (b' ++ b) = _ ∨ ∃ ps u, _ ∧ l.text.trimEnd ++ (b' ++ b) ++ '#' :: u = _
  rwa [← List.append_assoc, htrim]

theorem trims_idleLine (hl : l'.Trims r.idleLine) : l' = r.idleLine := by
  have htrim : r.idleLine.text.trimEnd = r.idleLine.text := by
    refine Text.trimEnd_eq_self_of_getLast? fun c hc => ?_
    rw [show r.idleLine.text = r.line.text.indent ++ "pass".toList from rfl,
      List.getLast?_append_of_ne_nil _ (by simp)] at hc
    obtain rfl := Option.some.inj hc
    decide
  rcases hl with rfl | rfl
  · rfl
  · rw [htrim]
    rfl

namespace Yields

theorem skip (us : List Row) (h : Yields docs rs ls) : Yields docs (us ++ rs) ls := by
  induction us with
  | nil => exact h
  | cons u us ih => exact .gone u ih

theorem nil (docs : Bool) (rs : List Row) : Yields docs rs [] := by
  have := skip rs (.done : Yields docs [] [])
  rwa [List.append_nil] at this

theorem filterMap {f : Row → Option Line} (h : ∀ r ∈ rs, ∀ l, f r = some l → r.CutTo l) :
    Yields docs rs (rs.filterMap f) := by
  induction rs with
  | nil => exact .done
  | cons r rs ih =>
    obtain ⟨hr, hrs⟩ := List.forall_mem_cons.mp h
    cases hf : f r with
    | none =>
      rw [List.filterMap_cons_none hf]
      exact .gone r (ih hrs)
    | some l =>
      rw [List.filterMap_cons_some hf]
      exact .cut (hr l hf) (ih hrs)

/-- Lines that are yielded may go or lose the blanks at their end. -/
theorem thin (h : Yields docs rs ls) (hl : List.SublistForall₂ Line.Trims ls' ls) :
    Yields docs rs ls' := by
  induction h generalizing ls' with
  | done =>
    cases hl
    exact .done
  | gone r _ ih => exact .gone r (ih hl)
  | cut hcut _ ih =>
    cases hl with
    | nil => exact nil docs _
    | cons hfirst hl => exact .cut (hcut.trims hfirst) (ih hl)
    | cons_right hl => exact .gone _ (ih hl)
  | idle asked hdoc _ ih =>
    cases hl with
    | nil => exact nil docs _
    | cons hfirst hl =>
      rw [trims_idleLine hfirst]
      exact .idle asked hdoc (ih hl)
    | cons_right hl => exact skip _ (ih hl)

end Yields

theorem Makes.append {i j : Nat} (h : Makes docs rs i j l) (us : List Row) :
    Makes docs (us ++ rs) (us.length + i) (us.length + j) l := by
  obtain ⟨r, hr, hl⟩ := h
  refine ⟨r, by rw [List.getElem?_append_right (Nat.le_add_right ..), Nat.add_sub_cancel_left, hr], ?_⟩
  refine hl.imp_right fun ⟨hdocs, hidle, n, hdoc, hn⟩ => ⟨hdocs, hidle, n, ?_, by omega⟩
  rwa [List.drop_append, List.drop_eq_nil_of_le (Nat.le_add_right ..), List.nil_append,
    Nat.add_sub_cancel_left]

/-- Places of lines, with one more line in front of them that stands for `n` rows. -/
def placeAfter (n : Nat) (place : Nat → Nat) : Nat → Nat
  | 0 => 0
  | i + 1 => n + place i

theorem placeAfter_strictMono {n : Nat} (hn : 0 < n) {place : Nat → Nat} (h : StrictMono place) :
    StrictMono (placeAfter n place) := by
  refine strictMono_nat_of_lt_succ fun i => ?_
  cases i with
  | zero => exact Nat.add_pos_left hn _
  | succ i => exact Nat.add_lt_add_left (h (Nat.lt_succ_self i)) n

/-- Each line stands in the place of rows, in the order of the rows. -/
def Placed (docs : Bool) (rs : List Row) (ls : List Line) : Prop :=
  ∃ place : Nat → Nat, StrictMono place ∧
    ∀ i l, ls[i]? = some l → Makes docs rs (place i) (place (i + 1)) l

theorem Placed.append (h : Placed docs rs ls) (us : List Row) : Placed docs (us ++ rs) ls := by
  obtain ⟨place, hplace, hmakes⟩ := h
  exact ⟨fun i => us.length + place i, fun _ _ h => Nat.add_lt_add_left (hplace h) _,
    fun i l hl => (hmakes i l hl).append us⟩

theorem Placed.cons (h : Placed docs rs ls) (hne : us ≠ [])
    (hl : ∀ j, us.length ≤ j → Makes docs (us ++ rs) 0 j l) : Placed docs (us ++ rs) (l :: ls) := by
  obtain ⟨place, hplace, hmakes⟩ := h
  refine ⟨placeAfter us.length place, placeAfter_strictMono (List.length_pos_iff.mpr hne) hplace,
    fun i l' hl' => ?_⟩
  cases i with
  | zero =>
    obtain rfl := Option.some.inj hl'
    exact hl _ (Nat.le_add_right ..)
  | succ i => exact (hmakes i l' hl').append us

theorem Yields.placed (h : Yields docs rs ls) : Placed docs rs ls := by
  induction h with
  | done => exact ⟨id, strictMono_id, fun i l h => by cases h⟩
  | gone r _ ih => exact ih.append [r]
  | @cut r _ _ _ hcut _ ih =>
    exact ih.cons (List.cons_ne_nil r []) fun j _ => ⟨r, rfl, .inl hcut⟩
  | @idle r more _ _ asked hdoc _ ih =>
    refine ih.cons (List.cons_ne_nil r more) fun j hj =>
      ⟨r, rfl, .inr ⟨asked, rfl, (r :: more).length, ?_, by rwa [Nat.zero_add]⟩⟩
    rwa [List.drop_zero, List.take_left]

/-- Row `q` is what the removal of comments leaves of row `r`. -/
structure Leaves (r q : Row) : Prop where
  read : q.Read .python
  cut : r.CutTo q.line
  before : q.before = r.before
  after : q.after.inLiteral = r.after.inLiteral

variable {q : Row}

theorem CutTo.isPrefix (h : r.CutTo l) : l.text <+: r.line.text := by
  obtain ⟨b, -, hrest | ⟨-, u, -, hrest⟩⟩ := h.rest
  · exact ⟨b, hrest⟩
  · exact ⟨b ++ '#' :: u, by rw [← List.append_assoc, hrest]⟩

theorem cutTo_withoutComments (hr : r.Read .python) (hb : r.before ≠ .block .plain)
    (h : r.withoutComments .plain = some l) : r.CutTo l := by
  by_cases hl : Lacks .plain r.pieces
  · rw [withoutComments_of_lacks hl] at h
    exact Option.some.inj h ▸ .refl r
  obtain hsame | ⟨hafter, u, hu⟩ := hr.begins.python_without hb
  · exact absurd (hsame ▸ lacks_without .plain r.pieces) hl
  rw [withoutComments_eq_left hl] at h
  obtain rfl := eq_of_left h
  rw [hafter, show Carry.code.inLiteral = false from rfl, if_neg Bool.false_ne_true]
  obtain ⟨b, hblank, htrim⟩ := (wording (without .plain r.pieces)).exists_trimEnd_append
  refine ⟨rfl, b, hblank, .inr ⟨_, u, hu, ?_⟩⟩
  change (wording (without .plain r.pieces)).trimEnd ++ b ++ '#' :: u = _
  rw [htrim, ← hr.spells]
  nth_rewrite 2 [hu]
  rw [wording_append, wording_cons, wording_nil, List.append_nil]
  rfl

theorem leaves_of_strip (hr : r.Read .python) (hb : r.before ≠ .block .plain)
    (h : (Pass.strip Lexicon.python_steady Lexicon.python_detachable .plain).row r = some q) :
    r.Leaves q := by
  have hk := (Pass.strip Lexicon.python_steady Lexicon.python_detachable .plain).kept hr h
  obtain ⟨l, hl, rfl⟩ := Option.map_eq_some_iff.mp h
  exact ⟨hk.read, cutTo_withoutComments hr hb hl, Lexicon.without_of_ne hb,
    Carry.inLiteral_without .plain r.after⟩

/-- What a docstring opens with is left as it is, and so is its indentation. -/
theorem Leaves.opens (h : r.Leaves q) (ht : q.line.text.OpensDocstring) :
    r.line.text.OpensDocstring ∧ q.idleLine = r.idleLine := by
  obtain ⟨u, hu⟩ := h.cut.isPrefix
  rw [idleLine, idleLine, ← hu, ht.indent_append, Line.withText, Line.withText, h.cut.cr]
  exact ⟨ht.append u, rfl⟩

theorem exists_holdDocstring (hb : r.before = .code) (ht : r.line.text.OpensDocstring)
    (hout : ∃ q ∈ r :: rs, q.after.inLiteral = false) :
    ∃ more later, rs = more ++ later ∧ HoldDocstring (r :: more) := by
  obtain ⟨q, hq, ha⟩ := hout
  have hfound : ((r :: rs).find? (!·.after.inLiteral)).isSome :=
    List.find?_isSome.mpr ⟨q, hq, by simp [ha]⟩
  obtain ⟨last, hlast⟩ := Option.isSome_iff_exists.mp hfound
  obtain ⟨hend, init, later, hrows, hinit⟩ := List.find?_eq_some_iff_append.mp hlast
  obtain ⟨a, more, hmore⟩ := List.exists_cons_of_ne_nil (List.append_ne_nil_of_right_ne_nil init
    (List.cons_ne_nil last []))
  rw [List.append_cons, hmore] at hrows
  obtain ⟨rfl, hrs⟩ := List.cons.inj hrows
  exact ⟨more, later, hrs, ⟨r, rfl, hb, ht⟩, init, last, hmore.symm, by simpa using hinit,
    by simpa using hend⟩

end Row

open Row

namespace NestedRow

variable {f : Row → Option Row} {above rest taken following : List NestedRow} {r : NestedRow}
  {slot : DocstringSlot} {rs : List Row}

/-- Rows of which a docstring is left once the comments are gone hold one themselves. -/
theorem Takes.exists_holdDocstring (goes : Takes above r rest slot taken following)
    (hf : ∀ a ∈ rs, ∀ q, f a = some q → a.Leaves q) (htaken : rs.filterMap f = taken.map row) :
    ∃ gone a more later, rs = gone ++ (a :: more ++ later) ∧ HoldDocstring (a :: more) ∧
      r.row.idleLine = a.idleLine := by
  obtain ⟨t, tail, init, last, hq, rfl, hcut, -, hlast, -⟩ := docstring?_eq_some goes.docstring
  obtain ⟨p, ps, hps⟩ := List.exists_cons_of_ne_nil (List.append_ne_nil_of_right_ne_nil init
    (List.cons_ne_nil last []))
  rw [hps, List.cons_append] at hcut
  obtain ⟨rfl, -⟩ := List.cons.inj hcut
  obtain ⟨gone, a, later, rfl, hgone, ha, -⟩ :=
    List.filterMap_eq_cons_iff.mp (htaken.trans (congrArg (List.map row) hps))
  have hleaves := hf a (by simp) _ ha
  obtain ⟨hopens, hline⟩ := hleaves.opens (hleaves.read.spells ▸ hq.opensDocstring)
  have hout : ∃ b ∈ a :: later, b.after.inLiteral = false := by
    have hmem : last.row ∈ (gone ++ a :: later).filterMap f := by
      rw [htaken]
      exact List.mem_map_of_mem (by simp)
    obtain ⟨b, hb, hfb⟩ := List.mem_filterMap.mp hmem
    refine ⟨b, (List.mem_append.mp hb).resolve_left fun hb => ?_,
      (hf b hb _ hfb).after.symm.trans hlast⟩
    cases (hgone b hb).symm.trans hfb
  obtain ⟨more, later, rfl, hdoc⟩ := Row.exists_holdDocstring (hleaves.before ▸ goes.outside) hopens hout
  exact ⟨gone, a, more, later, rfl, hdoc, hline⟩

/-- The removal of docstrings, told of the rows before their comments went. -/
theorem Cutting.yields {rows : List NestedRow} {cs : List Cut} (h : Cutting above rows cs)
    (hf : ∀ a ∈ rs, ∀ q, f a = some q → a.Leaves q) (hrows : rs.filterMap f = rows.map row) :
    Yields true rs (cs.flatMap Cut.lines) := by
  induction h generalizing rs with
  | done => exact .nil true rs
  | kept _ _ ih =>
    obtain ⟨gone, a, later, rfl, -, ha, hlater⟩ := List.filterMap_eq_cons_iff.mp hrows
    obtain ⟨hfirst, hf⟩ := List.forall_mem_cons.mp (List.forall_mem_append.mp hf).2
    exact .skip gone (.cut (hfirst _ ha).cut (ih hf hlater))
  | @removed _ rest taken following r slot cs goes _ ih =>
    obtain ⟨-, -, -, -, -, -, hcut, -⟩ := docstring?_eq_some goes.docstring
    rw [hcut, List.map_append] at hrows
    obtain ⟨rs, rs', rfl, htaken, hfollowing⟩ := List.filterMap_eq_append_iff.mp hrows
    obtain ⟨hf, hf'⟩ := List.forall_mem_append.mp hf
    have ih := ih hf' hfollowing
    rw [List.flatMap_cons, Cut.lines]
    rcases placeholder_eq slot r following with he | he
    · rw [he]
      exact ih.skip rs
    · obtain ⟨gone, a, more, later, rfl, hdoc, hline⟩ := goes.exists_holdDocstring hf htaken
      rw [he, show r.row.line.withText (r.text.indent ++ "pass".toList) = a.idleLine from hline,
        List.append_assoc, List.append_assoc]
      exact .skip gone (.idle rfl hdoc (ih.skip later))

end NestedRow

namespace Document

open Lexicon

theorem trims_removeBlankLines (x : Lexicon) (d : Document) :
    List.SublistForall₂ Line.Trims (d.removeBlankLines x).lines d.lines := by
  rw [← x.rows_map_line d]
  exact (List.filter_sublist.map Row.line).sublistForall₂

theorem trims_trimLines (x : Lexicon) (d : Document) :
    List.SublistForall₂ Line.Trims (d.trimLines x).lines d.lines := by
  rw [← x.rows_map_line d]
  refine List.sublistForall₂_iff.mpr ⟨_, ?_, .refl _⟩
  rw [trimLines, withLines, List.forall₂_map_left_iff, List.forall₂_map_right_iff, List.forall₂_same]
  intro r _
  rw [Row.trimmed]
  split
  · exact .inl rfl
  · exact .inr rfl

theorem trims_parse_render {d : Document} (h : ∀ l ∈ d.lines, l.Whole) :
    List.SublistForall₂ Line.Trims (parse d.render).lines d.lines := by
  refine List.Sublist.sublistForall₂ ?_
  rcases parse_render h with he | ⟨-, he⟩
  · exact he ▸ List.Sublist.refl _
  · exact he.symm ▸ List.sublist_append_left ..

theorem yields_passIf {docs : Bool} {rs : List Row} {d : Document} {pass : Document → Document}
    (h : Yields docs rs d.lines) (hp : ∀ d, List.SublistForall₂ Line.Trims (pass d).lines d.lines)
    (wanted : Bool) : Yields docs rs (d.passIf wanted pass).lines := by
  cases wanted with
  | false => exact h
  | true => exact h.thin (hp d)

theorem leaves_of_mem_rows (d : Document) : ∀ r ∈ python.rows d, ∀ q,
    (Pass.strip python_steady python_detachable .plain).row r = some q → r.Leaves q :=
  fun r hr _ => leaves_of_strip (python.rows_read python_regular.filled d r hr)
    (rowsFrom_ne_block rfl python_regular.filled (k := .code) trivial nofun d.lines r hr)

theorem yields_strip (d : Document) (docs : Bool) :
    Yields docs (python.rows d) ((d.stripComments .python .plain).passIf docs removeDocstrings).lines := by
  have hf := d.leaves_of_mem_rows
  rw [← Pass.apply_strip python_steady python_detachable]
  cases docs with
  | false =>
    change Yields false _ (((python.rows d).filterMap _).map Row.line)
    rw [List.map_filterMap]
    refine .filterMap fun r hr l hl => ?_
    obtain ⟨q, hq, rfl⟩ := Option.map_eq_some_iff.mp hl
    exact (hf r hr q hq).cut
  | true =>
    obtain ⟨cs, hcs, hlines⟩ := NestedRow.exists_cutting []
      (NestedRow.ofRows 0 ((python.rows d).filterMap
        (Pass.strip python_steady python_detachable .plain).row))
    have := hcs.yields hf (NestedRow.map_row_ofRows 0 _).symm
    rwa [hlines, ← Pass.rows_apply _ python_regular] at this

end Document

/-- Scrubbing a Python text cuts lines at their end and leaves the lines that stay in their order: what
is cut off is blanks, perhaps with a comment behind them, and where docstrings go, one may become a
`pass` that is indented as it was. -/
theorem Kind.scrub_python_cuts (o : ScrubOptions) (t : Text) :
    ∃ place : Nat → Nat, StrictMono place ∧
      ∀ i l, (Document.parse (Kind.python.scrub o t)).lines[i]? = some l →
        Row.Makes o.stripDocs (Lexicon.python.rows (Document.parse t)) (place i) (place (i + 1)) l := by
  have hwhole := (Document.keeps_scrubPython _ Line.whole_durable o).lines (Document.parse_whole t)
  have hblank := Document.yields_passIf (Document.yields_strip (Document.parse t) o.stripDocs)
    (Document.trims_removeBlankLines .python) o.stripBlankLines
  have htrim := Document.yields_passIf hblank (Document.trims_trimLines .python) o.compact
  exact (htrim.thin (Document.trims_parse_render hwhole)).placed

end CleanCopy
