import CleanCopy.Proofs.Scrub.Across
import CleanCopy.Proofs.Scrub.Slices
import CleanCopy.Proofs.Scrub.Sweep
import CleanCopy.Proofs.Text.Lines
import CleanCopy.Scrub.Kind

namespace CleanCopy

open Piece

/-- What a line continues: a plain comment, or code. -/
def Carry.within (inside : Bool) : Carry := if inside then .block .plain else .code

namespace Lexicon

/-- Plain block comments between two delimiters, and nothing else. -/
def blockOnly (opener closer : Text) : Lexicon := ⟨none, none, some (opener, closer), none, []⟩

variable {opener closer before body head inside rest u t : Text} {odd : Bool}
  {ps : List Piece} {k : Carry}

theorem blockOnly_filled (ho : opener ≠ []) (hc : closer ≠ []) :
    (blockOnly opener closer).Filled := by
  have hmem (s : Text) : s ∈ (blockOnly opener closer).delimiters → s = opener ∨ s = closer := by
    simp [delimiters, blockOnly]
  intro s hs
  rcases hmem s hs with rfl | rfl
  · exact ho
  · exact hc

theorem token?_blockOnly (t : Text) : (blockOnly opener closer).token? t =
    if t.startsWith opener then some (.blockComment .plain opener) else none := by
  cases h : t.startsWith opener <;> simp [token?, lineToken?, blockToken?, blockOnly, h]

theorem lexeme?_blockOnly_of_none (h : Text.after? opener t = none) :
    (blockOnly opener closer).lexeme? odd t = none := by
  rw [lexeme?_eq_none_iff, token?_blockOnly, Text.startsWith, h]
  exact .inr rfl

theorem lexeme?_blockOnly (opener closer inside : Text) :
    (blockOnly opener closer).lexeme? false (opener ++ inside) =
      some ((blockOnly opener closer).blockRest .plain opener inside) := by
  refine lexeme?_of_block ?_
  rw [token?_blockOnly, Text.startsWith, Text.after?_self_append]
  rfl

theorem blockRest_blockOnly_of_some (h : Text.cut? closer inside = some (body, rest)) :
    (blockOnly opener closer).blockRest .plain head inside =
      .closed (.comment .plain (head ++ body ++ closer)) rest := by
  rw [blockRest, show (blockOnly opener closer).blockCloser = closer from rfl, h]

theorem blockRest_blockOnly_of_none (h : Text.cut? closer inside = none) :
    (blockOnly opener closer).blockRest .plain head inside =
      .unclosed (.comment .plain (head ++ inside)) (.block .plain) := by
  rw [blockRest, show (blockOnly opener closer).blockCloser = closer from rfl, h]

/-- Nothing begins in a text with no opener. -/
theorem passes_blockOnly
    (h : Text.cut? opener (u ++ rest) = (Text.cut? opener rest).map fun (a, b) => (u ++ a, b)) :
    (blockOnly opener closer).Passes rest odd u := by
  induction u generalizing odd with
  | nil => trivial
  | cons c cs ih =>
    rw [List.cons_append, Text.cut?] at h
    cases hafter : Text.after? opener (c :: (cs ++ rest)) with
    | some r =>
      rw [hafter] at h
      obtain ⟨p, -, hp⟩ := Option.map_eq_some_iff.mp h.symm
      cases congrArg Prod.fst hp
    | none =>
      rw [hafter] at h
      refine ⟨lexeme?_blockOnly_of_none hafter, ih ?_⟩
      have hinj : Function.Injective fun (p : Text × Text) => (c :: p.1, p.2) := by
        rintro ⟨a, b⟩ ⟨a', b'⟩ he
        simpa using he
      refine Option.map_injective hinj ?_
      rw [Option.map_map]
      exact h

/-- Code is read up to the first opener. -/
theorem reads_blockOnly_code (hu : '\\' ∉ u) (h : Text.cut? opener u = some (before, inside))
    (hps : wording ps = opener ++ inside) (later : (blockOnly opener closer).Reads false ps k) :
    (blockOnly opener closer).Reads false (.code before :: ps) k := by
  have htext : before ++ (opener ++ inside) = u := by rw [← Text.cut?_append h, List.append_assoc]
  refine .code (passes_blockOnly ?_) ?_
  · rw [hps, htext, h, Text.cut?_self_append]
    exact congrArg (fun s => some (s, inside)) (List.append_nil before).symm
  · rw [Escape.oddAfter_of_notMem fun hm => hu (htext ▸ List.mem_append_left _ hm)]
    exact later

theorem reads_blockPieces (ho : opener ≠ []) (hu : '\\' ∉ u) :
    (blockOnly opener closer).Reads false (Text.blockPieces opener closer (fun _ => false) u)
      (.within (Text.leavesOpen opener closer u)) := by
  fun_induction Text.leavesOpen opener closer u with
  | case1 u h =>
    rw [Text.blockPieces, h]
    refine .code (passes_blockOnly ?_) ?_
    · rw [wording_nil, List.append_nil, h, Text.cut?_nil ho]
      rfl
    · rw [Escape.oddAfter_of_notMem hu]
      exact .done false
  | case2 u before inside h h' =>
    rw [Text.blockPieces, h]
    simp only [h']
    refine reads_blockOnly_code hu h (List.append_nil _) (.unclosed ?_)
    rw [Text.text_blockPiece, lexeme?_blockOnly, blockRest_blockOnly_of_none h']
    rfl
  | case3 u before inside h body rest h' hlt ih =>
    rw [Text.blockPieces, h]
    simp only [h', hlt, if_true]
    have htext : opener ++ body ++ closer ++ rest = opener ++ inside := by
      rw [← Text.cut?_append h']
      simp only [List.append_assoc]
    have hwhole : before ++ (opener ++ body ++ closer) ++ rest = u :=
      (List.append_assoc ..).trans (Text.append_comment h h')
    obtain ⟨hbefore, hrest⟩ := not_or.mp (mt List.mem_append.mpr (hwhole.symm ▸ hu))
    refine reads_blockOnly_code hu h ?_ (.closed ?_ ?_)
    · rw [wording_cons, Text.text_blockPiece, Text.wording_blockPieces, htext]
    · rw [Text.text_blockPiece, Text.wording_blockPieces, htext, lexeme?_blockOnly,
        blockRest_blockOnly_of_some h']
      rfl
    · rw [Text.text_blockPiece, Escape.oddAfter_of_notMem fun hm =>
        hbefore (List.mem_append_right before hm)]
      exact ih hrest
  | case4 u before inside h body rest h' hlt =>
    exact absurd (Text.length_lt_of_cut? ho h h') hlt

theorem begins_linePieces (ho : opener ≠ []) (hu : '\\' ∉ u) (within : Bool) :
    (blockOnly opener closer).Begins (.within within) (Text.linePieces opener closer within u)
      (.within (Text.lineOpen opener closer within u)) := by
  cases within with
  | false => exact .code (reads_blockPieces ho hu)
  | true =>
    have hresume (t : Text) : (blockOnly opener closer).resume? (.within true) t =
      some ((blockOnly opener closer).blockRest .plain [] t) := rfl
    cases h : Text.cut? closer u with
    | none =>
      rw [Text.linePieces, Text.lineOpen, if_pos rfl, if_pos rfl, h]
      refine .unclosed trivial ?_
      rw [hresume]
      exact congrArg some (blockRest_blockOnly_of_none h)
    | some p =>
      obtain ⟨body, rest⟩ := p
      have htext : (comment .plain (body ++ closer)).text ++ rest = u := Text.cut?_append h
      obtain ⟨hbody, hrest⟩ := not_or.mp (mt List.mem_append.mpr (htext.symm ▸ hu))
      rw [Text.linePieces, Text.lineOpen, if_pos rfl, if_pos rfl, h]
      refine .closed trivial ?_ ?_
      · rw [Text.wording_blockPieces, htext, hresume]
        exact congrArg some (blockRest_blockOnly_of_some h)
      · rw [Escape.oddAfter_of_notMem hbody]
        exact reads_blockPieces ho hrest

theorem wording_linePieces (opener closer : Text) (within : Bool) (u : Text) :
    wording (Text.linePieces opener closer within u) = u := by
  rw [Text.linePieces]
  split
  · split
    · exact List.append_nil u
    · rename_i h
      rw [wording_cons, Text.wording_blockPieces]
      exact Text.cut?_append h
  · exact Text.wording_blockPieces ..

theorem scan_blockOnly (ho : opener ≠ []) (hc : closer ≠ []) (hu : '\\' ∉ u) (within : Bool) :
    (blockOnly opener closer).scan (.within within) u =
      ⟨merged (Text.linePieces opener closer within u),
        .within (Text.lineOpen opener closer within u)⟩ := by
  have := (begins_linePieces ho hu within).scan_eq (blockOnly_filled ho hc)
  rwa [wording_linePieces] at this

end Lexicon

namespace Line

variable {opener closer v t : Text} {within : Bool} {offset : Nat} {l : Line} {spans : List Span}

/-- A line loses to the spans what a scan of the line takes for comments. -/
theorem outside_of_cuts (h : Text.Cuts opener closer spans within offset l.text v t) :
    l.outside spans offset = Row.withoutComments .plain
      ⟨l, .within within, merged (Text.linePieces opener closer within l.text),
        .within (Text.lineOpen opener closer within l.text)⟩ := by
  have hcode (k : Bool) : (Carry.within k).inLiteral = false := by cases k <;> rfl
  rw [outside, h.touched, h.kept, ← wording_without_merged, Row.withoutComments,
    any_isComment_merged, hcode]
  rfl

end Line

namespace Document

variable {opener closer t : Text} {closed : Bool} {l : Line} {ls : List Line}

/-- The first line of a document, what ends it and what follows. -/
theorem exists_lineEnd (l : Line) (ls : List Line) (closed : Bool) :
    ∃ v, Text.LineEnd v (render ⟨ls, closed⟩) ∧
      render ⟨l :: ls, closed⟩ = l.text ++ (v ++ render ⟨ls, closed⟩) ∧
      (ls ≠ [] → l.text.byteSize + v.byteSize = l.byteSize) := by
  obtain ⟨text, cr⟩ := l
  cases ls with
  | nil =>
    refine ⟨(if cr then ['\r'] else []) ++ if closed then ['\n'] else [], ⟨?_, fun _ => ?_⟩, ?_,
      fun h => absurd rfl h⟩
    · cases cr <;> cases closed <;> simp
    · cases closed <;> rfl
    · rw [render_singleton]
      cases cr <;> cases closed <;> simp [Line.render, render, renderLines]
  | cons m ms =>
    refine ⟨(if cr then ['\r'] else []) ++ ['\n'], ⟨?_, fun h => ?_⟩, ?_, fun _ => ?_⟩
    · cases cr <;> simp
    · cases cr <;> cases h
    · rw [render_cons_cons]
      cases cr <;> simp [Line.render]
    · cases cr <;> rfl

theorem render_ne_nil (h : closed = false → (l :: ls).getLast? ≠ some ⟨[], false⟩) :
    render ⟨l :: ls, closed⟩ ≠ [] := by
  cases ls with
  | nil =>
    rw [render_singleton]
    cases closed with
    | true => simp
    | false =>
      obtain ⟨text, cr⟩ := l
      cases cr with
      | true => simp [Line.render]
      | false =>
        intro he
        refine h rfl ?_
        rw [if_neg Bool.false_ne_true, List.append_nil] at he
        rw [show text = [] from he]
        rfl
  | cons m ms => simp [render_cons_cons]

/-- What the spans leave of the lines of a text is what a scan line by line leaves of them, when
the text begins in code as well as when it begins in a comment. -/
theorem outsideAll_spansBehind (ho : opener.Inline) (hc : closer.Inline)
    (hback : ∀ l ∈ ls, '\\' ∉ l.text) (hlast : closed = false → ls.getLast? ≠ some ⟨[], false⟩)
    (within : Bool) {start offset : Nat} (hstart : within = true → start ≤ offset) :
    Line.outsideAll (Text.spansBehind opener closer within start offset (render ⟨ls, closed⟩))
        offset ls =
      ((Lexicon.blockOnly opener closer).rowsFrom (.within within) ls).filterMap
        (·.withoutComments .plain) := by
  induction ls generalizing within start offset with
  | nil => rfl
  | cons l ls ih =>
    obtain ⟨hl, hls⟩ := List.forall_mem_cons.mp hback
    obtain ⟨v, hv, htext, hsize⟩ := exists_lineEnd l ls closed
    have hcuts := Text.cuts_spansBehind ho hc hv hstart (htext ▸ render_ne_nil hlast)
    rw [← htext] at hcuts
    have hrest : Line.outsideAll
        (Text.spansBehind opener closer within start offset (render ⟨l :: ls, closed⟩))
          (offset + l.byteSize) ls =
        ((Lexicon.blockOnly opener closer).rowsFrom
          (.within (Text.lineOpen opener closer within l.text)) ls).filterMap
            (·.withoutComments .plain) := by
      cases ls with
      | nil => rfl
      | cons m ms =>
        have hsize := hsize (List.cons_ne_nil m ms)
        -- The spans that end within the line are over; the others are those of what follows it.
        obtain ⟨pre, start', hspans, hpre, hstart'⟩ := hcuts.behind
        rw [hspans, Line.outsideAll_append_of_le fun s hs => by have := hpre s hs; omega,
          Nat.add_assoc, hsize]
        refine ih hls (fun hopen => ?_) _ fun hopen => (hstart' hopen).trans (by omega)
        rw [← List.getLast?_cons_cons (a := l)]
        exact hlast hopen
    rw [Line.outsideAll, hrest, Line.outside_of_cuts hcuts, Lexicon.rowsFrom,
      Lexicon.scan_blockOnly ho.ne_nil hc.ne_nil hl, List.filterMap_cons]
    cases Row.withoutComments _ _ <;> rfl

theorem mem_render {c : Char} (hl : l ∈ ls) (hc : c ∈ l.text) : c ∈ render ⟨ls, closed⟩ := by
  induction ls with
  | nil => cases hl
  | cons m ms ih =>
    obtain ⟨v, -, htext, -⟩ := exists_lineEnd m ms closed
    rw [htext]
    rcases List.mem_cons.mp hl with rfl | hl
    · exact List.mem_append_left _ hc
    · exact List.mem_append_right _ (List.mem_append_right v (ih hl))

/-- To cut the comments out of a text is to strip them line by line. -/
theorem removeSpans_blockSpans (ho : opener.Inline) (hc : closer.Inline) (ht : '\\' ∉ t) :
    (parse t).removeSpans (Text.blockSpans opener closer (fun _ => false) 0 t) =
      (parse t).stripComments (.blockOnly opener closer) .plain := by
  have hrender : render ⟨(parse t).lines, (parse t).closed⟩ = t := render_parse t
  have hback : ∀ l ∈ (parse t).lines, '\\' ∉ l.text :=
    fun l hl hm => ht (hrender ▸ mem_render hl hm)
  have hlines : Line.outsideAll (Text.spansBehind opener closer false 0 0
      (render ⟨(parse t).lines, (parse t).closed⟩)) 0 (parse t).lines = _ :=
    outsideAll_spansBehind ho hc hback getLast?_parse false nofun
  rw [hrender] at hlines
  exact (removeSpans_blockSpans_eq ..).trans (congrArg (parse t).withLines hlines)

end Document

namespace Text

variable {opener closer t : Text} {keep keep' : Text → Bool} {offset : Nat}

/-- The bodies of the comments of a text, also of one that is not closed. -/
def blockBodies (opener closer t : Text) : List Text :=
  match cut? opener t with
  | none => []
  | some (_, inside) =>
    match cut? closer inside with
    | none => [inside]
    | some (body, rest) =>
      if rest.length < t.length then body :: blockBodies opener closer rest else []
  termination_by t.length

def markupBodies (t : Text) : List Text := blockBodies ['<', '!', '-', '-'] ['-', '-', '>'] t

/-- Only of the bodies of its comments it matters which ones are kept. -/
theorem blockSpans_congr (h : ∀ body ∈ blockBodies opener closer t, keep body = keep' body) :
    blockSpans opener closer keep offset t = blockSpans opener closer keep' offset t := by
  fun_induction blockBodies opener closer t generalizing offset with
  | case1 t hcut => rw [blockSpans, blockSpans, hcut]
  | case2 t before inside hcut hcut' =>
    rw [blockSpans, blockSpans, hcut]
    simp only [hcut', h inside (List.mem_singleton_self inside)]
  | case3 t before inside hcut body rest hcut' hlt ih =>
    obtain ⟨hbody, hrest⟩ := List.forall_mem_cons.mp h
    rw [blockSpans, blockSpans, hcut]
    simp only [hcut', hlt, if_true, hbody, ih hrest]
  | case4 t before inside hcut body rest hcut' hlt =>
    rw [blockSpans, blockSpans, hcut]
    simp only [hcut', hlt, if_false]

end Text

/-- The comments that are found in a whole style sheet, or in markup without template
instructions, go as they would line by line. -/
theorem Kind.scrub_minimal_eq_stripComments {t : Text} (ht : '\\' ∉ t) :
    css.scrub .minimal t =
        ((Document.parse t).stripComments (.blockOnly ['/', '*'] ['*', '/']) .plain).render ∧
      ((∀ body ∈ t.markupBodies, body.isTemplateMark = false) →
        html.scrub .minimal t = ((Document.parse t).stripComments
          (.blockOnly ['<', '!', '-', '-'] ['-', '-', '>']) .plain).render) := by
  have hcut {opener closer : Text} (ho : opener.Inline) (hc : closer.Inline) :=
    congrArg Document.render (Document.removeSpans_blockSpans ho hc ht)
  refine ⟨hcut (by decide) (by decide), fun hbodies => ?_⟩
  rw [← hcut (by decide) (by decide), ← Text.blockSpans_congr hbodies]
  rfl

/-- A comment with a blank line and carriage returns in it, one that takes a line break along, and
one that is not closed. -/
theorem Kind.scrub_minimal_eq_stripComments_unclosed :
    let t := "p /* q\r\n\r\n r */ s\n<!-- u\n--> v\n/* w".toList
    css.scrub .minimal t =
        ((Document.parse t).stripComments (.blockOnly ['/', '*'] ['*', '/']) .plain).render ∧
      html.scrub .minimal t = ((Document.parse t).stripComments
        (.blockOnly ['<', '!', '-', '-'] ['-', '-', '>']) .plain).render := by
  intro t
  obtain ⟨hcss, hhtml⟩ := scrub_minimal_eq_stripComments (t := t) (by decide)
  exact ⟨hcss, hhtml (by decide +kernel)⟩

end CleanCopy
