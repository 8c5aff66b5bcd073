import CleanCopy.Proofs.Scrub.Slices
import CleanCopy.Proofs.Scrub.Spacing
import CleanCopy.Proofs.Scrub.Stripping
import CleanCopy.Scrub.Kind

namespace CleanCopy

open Piece

variable {x : Lexicon} {r : Row}

namespace Row

theorem visible_ended (r : Row) (t : Text) :
    (if r.after.inLiteral then t else t.trimEnd).visible = t.visible := by
  split
  · rfl
  · exact Text.visible_trimEnd t

theorem visible_spelled (r : Row) (qs : List Piece) :
    (r.spelled qs).text.visible = (wording qs).visible := by
  change (wording (r.ended qs)).visible = _
  rw [wording_ended, visible_ended]

theorem visible_withoutComments (hr : r.Read x) (cls : CommentClass) :
    ((r.withoutComments cls).toList.flatMap fun l => l.text.visible) =
      (wording (without cls r.pieces)).visible := by
  by_cases hl : Lacks cls r.pieces
  · rw [withoutComments_of_lacks hl, without_of_lacks hl, hr.spells]
    exact List.append_nil _
  · rw [withoutComments_of_not_lacks hl]
    split
    · rename_i h
      rw [Text.visible_of_isBlank (Bool.and_eq_true_iff.mp h).2]
      rfl
    · exact (List.append_nil _).trans (r.visible_spelled _)

theorem visible_trimmed (hr : r.Read x) : r.trimmed.text.visible = r.line.text.visible := by
  rw [hr.trimmed_eq, visible_spelled, hr.spells]

theorem visible_compact (hr : r.Read x) (keepIndent : Bool) :
    (r.compact keepIndent).text.visible = r.line.text.visible := by
  rw [compact_eq, visible_spelled, visible_wording_squeeze, hr.spells]

end Row

namespace Document

variable (d : Document)

/-- What is visible in a document that is rewritten row by row. -/
theorem visible_filterMap_rows (hx : x.Regular) {f : Row → Option Line} {g : Row → Text}
    (h : ∀ r : Row, r.Read x → ((f r).toList.flatMap fun l => l.text.visible) = (g r).visible) :
    (d.withLines ((x.rows d).filterMap f)).visible =
      Text.visible ((x.rows d).flatMap g) := by
  change List.flatMap _ (List.filterMap f _) = _
  rw [List.filterMap_eq_flatMap_toList, List.flatMap_assoc, Text.visible_flatMap]
  exact List.flatMap_congr fun r hr => h r (x.rows_read hx.filled d r hr)

theorem visible_rows (x : Lexicon) :
    Text.visible ((x.rows d).flatMap fun r => r.line.text) = d.visible := by
  rw [Text.visible_flatMap, visible, ← x.rows_map_line d, List.flatMap_map]

theorem visible_stripComments (hx : x.Regular) (cls : CommentClass) :
    (d.stripComments x cls).visible =
      (wording (without cls ((x.rows d).flatMap Row.pieces))).visible := by
  rw [stripComments, visible_filterMap_rows d hx fun r hr => Row.visible_withoutComments hr cls,
    without, List.filter_flatMap, wording, List.flatMap_assoc]
  rfl

theorem visible_removeBlankLines (hx : x.Regular) : (d.removeBlankLines x).visible = d.visible := by
  rw [removeBlankLines, ← List.filterMap_eq_filter, List.map_filterMap,
    visible_filterMap_rows (g := fun r => r.line.text) d hx, visible_rows]
  intro r _
  rw [Option.guard]
  split
  · exact List.append_nil _
  · rename_i h
    rw [Bool.not_eq_true, Bool.or_eq_false_iff, Bool.not_eq_false'] at h
    exact (Text.visible_of_isBlank h.2).symm

/-- A pass that rewrites no row in what is visible. -/
theorem visible_map_rows (hx : x.Regular) {f : Row → Line}
    (h : ∀ r : Row, r.Read x → (f r).text.visible = r.line.text.visible) :
    (d.withLines ((x.rows d).map f)).visible = d.visible := by
  rw [← List.filterMap_eq_map, visible_filterMap_rows (g := fun r => r.line.text) d hx,
    visible_rows]
  exact fun r hr => (List.append_nil _).trans (h r hr)

theorem visible_trimLines (hx : x.Regular) : (d.trimLines x).visible = d.visible :=
  visible_map_rows d hx fun _ => Row.visible_trimmed

theorem visible_compact (hx : x.Regular) (keepIndent : Bool) :
    (d.compact x keepIndent).visible = d.visible :=
  visible_map_rows d hx fun _ hr => Row.visible_compact hr keepIndent

theorem visible_mapLines {f : Text → Text} (h : ∀ t, (f t).visible = t.visible) :
    (d.mapLines f).visible = d.visible := by
  rw [mapLines, visible, withLines, List.flatMap_map]
  exact List.flatMap_congr fun l _ => h l.text

variable {d} in
theorem visible_passIf {pass : Document → Document} (h : (pass d).visible = d.visible)
    (wanted : Bool) : (d.passIf wanted pass).visible = d.visible := by
  cases wanted
  · rfl
  · exact h

end Document

theorem Text.visible_compactMarkup (t : Text) : t.compactMarkup.visible = t.visible := by
  rw [compactMarkup, visible_trimEnd, spaceOut, visible_spaceOutFrom, closeUp, visible_closeUpFrom]

theorem Text.visible_compactStyle (t : Text) : t.compactStyle.visible = t.visible := by
  rw [compactStyle, visible_trim, tighten, visible_tightenFrom, spaceOut, visible_spaceOutFrom]

namespace Kind

/-- The code, the literals and the comments of a text, as its kind is read. Comments of template
engines are code. -/
def pieces (k : Kind) (t : Text) : List Piece :=
  match k with
  | html => Text.blockPieces ['<', '!', '-', '-'] ['-', '-', '>'] Text.isTemplateMark t
  | css => Text.blockPieces ['/', '*'] ['*', '/'] (fun _ => false) t
  | cSharp | typeScript | python => (k.lexicon.rows (Document.parse t)).flatMap Row.pieces

theorem visible_wording_rows (hx : x.Regular) (t : Text) :
    (wording ((x.rows (Document.parse t)).flatMap Row.pieces)).visible = t.visible := by
  have hrows : wording ((x.rows (Document.parse t)).flatMap Row.pieces) =
      (x.rows (Document.parse t)).flatMap fun r => r.line.text := by
    rw [wording, List.flatMap_assoc]
    exact List.flatMap_congr fun r hr => (x.rows_read hx.filled _ r hr).spells
  rw [hrows, Document.visible_rows, Document.visible_parse]

/-- The pieces leave out nothing but line ends. -/
theorem visible_wording_pieces (k : Kind) (t : Text) : (wording (k.pieces t)).visible = t.visible := by
  cases k with
  | cSharp => exact visible_wording_rows Lexicon.cSharp_regular t
  | typeScript => exact visible_wording_rows Lexicon.typeScript_regular t
  | python => exact visible_wording_rows Lexicon.python_regular t
  | html | css => exact congrArg Text.visible (Text.wording_blockPieces ..)

theorem visible_scrubSpans {tight : Text → Text} (htight : ∀ t, (tight t).visible = t.visible)
    (opener closer : Text) (keep : Text → Bool) (o : ScrubOptions) (t : Text) :
    ((Document.parse t).scrubSpans (Text.blockSpans opener closer keep 0 t) tight o).visible =
      (wording (without .plain (Text.blockPieces opener closer keep t))).visible := by
  rw [Document.scrubSpans, Document.visible_passIf (Document.visible_mapLines _ htight),
    Document.visible_passIf (Document.visible_removeBlankLines _ (by decide)),
    Document.removeSpans_blockSpans_eq, Document.visible_outside, Document.render_parse,
    Text.outside_blockSpans]

/-- Scrubbing takes away comments and whitespace, and nothing else. -/
theorem visible_scrub (k : Kind) (o : ScrubOptions) (t : Text) (hdocs : o.stripDocs = false)
    (hregions : o.stripRegions = false) :
    (k.scrub o t).visible = (wording (without .plain (k.pieces t))).visible ∧
      (wording (k.pieces t)).visible = t.visible := by
  refine ⟨?_, k.visible_wording_pieces t⟩
  refine (Document.visible_render _).trans ?_
  cases k with
  | cSharp =>
    have hx := Lexicon.cSharp_regular
    dsimp only
    rw [Document.scrubCSharp, hdocs, hregions,
      Document.visible_passIf (Document.visible_compact _ hx _),
      Document.visible_passIf (Document.visible_removeBlankLines _ hx)]
    exact Document.visible_stripComments _ hx .plain
  | typeScript =>
    have hx := Lexicon.typeScript_regular
    dsimp only
    rw [Document.scrubTypeScript, hdocs,
      Document.visible_passIf (Document.visible_compact _ hx _),
      Document.visible_passIf (Document.visible_removeBlankLines _ hx)]
    exact Document.visible_stripComments _ hx .plain
  | python =>
    have hx := Lexicon.python_regular
    dsimp only
    rw [Document.scrubPython, hdocs,
      Document.visible_passIf (Document.visible_trimLines _ hx),
      Document.visible_passIf (Document.visible_removeBlankLines _ hx)]
    exact Document.visible_stripComments _ hx .plain
  | html => exact visible_scrubSpans Text.visible_compactMarkup _ _ _ o t
  | css => exact visible_scrubSpans Text.visible_compactStyle _ _ _ o t

/-- A comment over two lines, another one of a template engine, and every line touched. -/
theorem visible_scrub_template_comment :
    let o : ScrubOptions := ⟨false, false, true, true⟩
    let t : Text := "<p>\r\n\t<!--(one)--> <!-- two\r\n three -->  four\n\n</p>".toList
    (o.stripDocs = false ∧ o.stripRegions = false) ∧
      (html.scrub o t).visible = "<p><!--(one)-->four</p>".toList ∧
      (wording (without .plain (html.pieces t))).visible = (html.scrub o t).visible ∧
      (wording (html.pieces t)).visible = t.visible := by
  intro o t
  obtain ⟨hscrub, hpieces⟩ := visible_scrub html o t rfl rfl
  exact ⟨⟨rfl, rfl⟩, by decide +kernel, hscrub.symm, hpieces⟩

end Kind

end CleanCopy
