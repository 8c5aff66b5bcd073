import CleanCopy.Proofs.Scrub.Durable
import CleanCopy.Proofs.Scrub.Kind

namespace CleanCopy

open Piece Lexicon

/-- A row as the options ask for it: it is blank only within a literal, and there are no blanks at its
end and few gaps in its code. -/
structure Kind.Spaced (k : Kind) (o : ScrubOptions) (r : Row) : Prop where
  blank : o.stripBlankLines = true → r.line.isBlank = true → r.before.inLiteral = true
  ended : o.compact = true → r.after.inLiteral = false →
    ∀ c, r.line.text.getLast? = some c → isBlank c = false
  cSharp : o.compact = true → k = .cSharp → Tight r.pieces
  typeScript : o.compact = true → k = .typeScript → Tidy true (r.before = .code) r.pieces

variable {x : Lexicon} {r : Row}

/-- The last two passes leave nothing to each other. -/
theorem Pass.fixes_spacing {Q : Pass x} (hx : x.Steady) (hi : Q.Idempotent)
    (hb : Q.Respects (blankLines hx.regular)) (blank compact : Bool) (d : Document)
    (h : r ∈ x.rows ((d.passIf blank (Document.removeBlankLines x)).passIf compact Q.apply)) :
    r.Read x ∧ (blank = true → (blankLines hx.regular).Fixes r) ∧ (compact = true → Q.Fixes r) := by
  have hblank : (blankLines hx.regular).apply = Document.removeBlankLines x :=
    funext (apply_blankLines _)
  have happly : (d.passIf blank (Document.removeBlankLines x)).passIf compact Q.apply =
      applyAll (whenever blank (blankLines hx.regular) ++ whenever compact Q) d := by
    rw [applyAll_append, applyAll_whenever, applyAll_whenever, hblank]
  have hall : Settling [blankLines hx.regular, Q] := by
    constructor
    · simp only [List.forall_mem_cons, List.not_mem_nil, false_implies, implies_true, and_true]
      exact ⟨blankLines_idempotent _, hi⟩
    · simpa using hb
  have hs := hall.sublist ((whenever_sublist blank _).append (whenever_sublist compact _))
  refine ⟨x.rows_read hx.regular.filled _ r h, ?_⟩
  rw [happly] at h
  have hfix (P : Pass x) (hP : P ∈ whenever blank (blankLines hx.regular) ++ whenever compact Q) :
      P.Fixes r := fixes_applyAll hx.regular hs.idempotent hs.respects d P hP r h
  exact ⟨fun ho => hfix _ (by simp [whenever, ho]), fun ho => hfix _ (by simp [whenever, ho])⟩

theorem Pass.blank_of_fixes (hx : x.Regular) (h : (Pass.blankLines hx).Fixes r)
    (hb : r.line.isBlank = true) : r.before.inLiteral = true := by
  have := (Pass.fixes_blankLines hx).mp h
  rwa [hb, Bool.not_true, Bool.or_false] at this

theorem Text.isBlank_of_trimEnd {t : Text} (h : t.trimEnd = t) (c : Char)
    (hc : t.getLast? = some c) : CleanCopy.isBlank c = false := getLast?_trimEnd (h.symm ▸ hc)

namespace Document

variable (o : ScrubOptions) (d : Document)

/-- What the last two passes leave of a kind that is compacted, with its indentation or without. -/
theorem spaced_compact {k : Kind} (hx : k.lexicon.Steady) {keepIndent : Bool}
    (hdrop : k = .cSharp → keepIndent = false) (hkeep : k = .typeScript → keepIndent = true)
    (h : r ∈ k.lexicon.rows ((d.passIf o.stripBlankLines (removeBlankLines k.lexicon)).passIf
      o.compact (compact k.lexicon keepIndent))) : k.Spaced o r := by
  have hcompact : (Pass.compact hx keepIndent).apply = Document.compact k.lexicon keepIndent :=
    funext (Pass.apply_compact _ keepIndent)
  rw [← hcompact] at h
  obtain ⟨hr, hblank, hfix⟩ := Pass.fixes_spacing hx (Pass.compact_idempotent hx keepIndent)
    (Pass.compact_respects_blankLines hx keepIndent) _ _ _ h
  have htidy ho := (Pass.fixes_compact_iff hx hr).mp (hfix ho)
  exact {
    blank := fun ho => Pass.blank_of_fixes hx.regular (hblank ho)
    ended := fun ho ha => Text.isBlank_of_trimEnd ((htidy ho).1 ha)
    cSharp := fun ho hk => Tidy.tight (hdrop hk ▸ (htidy ho).2)
    typeScript := fun ho hk => hkeep hk ▸ (htidy ho).2 }

theorem spaced_scrubPython (h : r ∈ Lexicon.python.rows (d.scrubPython o)) :
    Kind.python.Spaced o r := by
  have hx := python_steady
  have htrim : (Pass.trimLines hx).apply = trimLines .python := funext (Pass.apply_trimLines _)
  rw [scrubPython, ← htrim] at h
  obtain ⟨hr, hblank, hfix⟩ := Pass.fixes_spacing hx (Pass.trimLines_idempotent hx)
    (Pass.trimLines_respects_blankLines hx) _ _ _ h
  exact {
    blank := fun ho => Pass.blank_of_fixes hx.regular (hblank ho)
    ended := fun ho ha => Text.isBlank_of_trimEnd ((Pass.fixes_trimLines_iff hx hr).mp (hfix ho) ha)
    cSharp := fun _ hk => by cases hk
    typeScript := fun _ hk => by cases hk }

/-- In a text without literals no blank line is left. -/
theorem isBlank_of_mem_removeBlankLines {l : Line} (h : l ∈ (d.removeBlankLines .plain).lines) :
    l.isBlank = false := by
  obtain ⟨r, hr, rfl⟩ := List.mem_map.mp h
  obtain ⟨hr, hkeep⟩ := List.mem_filter.mp hr
  have hfits := (plain.rows_read plain_steady.regular.filled d r hr).begins.fits_before
  cases hk : r.before with
  | code | block cls => simpa [hk, Carry.inLiteral] using hkeep
  | literal d =>
    rw [hk] at hfits
    exact absurd hfits.1 List.not_mem_nil

theorem spaced_scrubSpans {k : Kind} (hc : k ≠ .cSharp) (ht : k ≠ .typeScript) (spans : List Span)
    {tight : Text → Text} (hvisible : ∀ t, (tight t).visible = t.visible)
    (hlast : ∀ {t : Text} {c : Char}, (tight t).getLast? = some c → isBlank c = false)
    (h : r.line ∈ (d.scrubSpans spans tight o).lines) : k.Spaced o r where
  blank ho hb := by
    rw [scrubSpans, ho] at h
    have hnone (l : Line) (hl : l ∈ ((d.removeSpans spans).removeBlankLines .plain).lines) :
        l.isBlank = false := isBlank_of_mem_removeBlankLines _ hl
    cases hcompact : o.compact with
    | false =>
      rw [hcompact] at h
      exact absurd ((hnone _ h).symm.trans hb) Bool.false_ne_true
    | true =>
      rw [hcompact] at h
      obtain ⟨l, hl, hline⟩ := List.mem_map.mp h
      have hlb : l.isBlank = true := by
        rw [← hline] at hb
        rw [Line.isBlank, ← Text.visible_eq_nil_iff, ← hvisible, Text.visible_eq_nil_iff]
        exact hb
      exact absurd ((hnone l hl).symm.trans hlb) Bool.false_ne_true
  ended ho _ c hc := by
    rw [scrubSpans, ho] at h
    obtain ⟨l, -, hl⟩ := List.mem_map.mp h
    rw [← hl] at hc
    exact hlast hc
  cSharp _ hk := absurd hk hc
  typeScript _ hk := absurd hk ht

end Document

/-- A scrubbed text that is read again has blank lines, blanks at line ends and gaps in its code only
where the options leave them or a literal holds them. -/
theorem Kind.scrub_normal (k : Kind) (o : ScrubOptions) (t : Text) :
    ∀ r ∈ k.lexicon.rows (Document.parse (k.scrub o t)), k.Spaced o r := by
  have hwhole {d : Document} (h : (Document.parse t).Keeps Line.Whole d) (x : Lexicon) :
      x.rows (Document.parse d.render) <+: x.rows d :=
    Document.rows_parse_render_isPrefix x (h.lines (Document.parse_whole t))
  have hP := Line.whole_durable
  intro r hr
  cases k with
  | cSharp =>
    exact Document.spaced_compact o _ cSharp_steady (fun _ => rfl) nofun
      ((hwhole (Document.keeps_scrubCSharp _ hP o) _).subset hr)
  | typeScript =>
    exact Document.spaced_compact o _ typeScript_steady nofun (fun _ => rfl)
      ((hwhole (Document.keeps_scrubTypeScript _ hP o) _).subset hr)
  | python =>
    exact Document.spaced_scrubPython o _ ((hwhole (Document.keeps_scrubPython _ hP o) _).subset hr)
  | html =>
    have hkeeps := (Document.parse t).keeps_scrubSpans hP o t.markupComments Text.mem_compactMarkup
      Text.getLast?_trimEnd
    have hline := List.mem_map_of_mem (f := Row.line) ((hwhole hkeeps .plain).subset hr)
    rw [Lexicon.rows_map_line] at hline
    exact Document.spaced_scrubSpans o _ nofun nofun _ Text.visible_compactMarkup
      Text.getLast?_trimEnd hline
  | css =>
    have hkeeps := (Document.parse t).keeps_scrubSpans hP o t.styleComments Text.mem_compactStyle
      Text.getLast?_trimEnd
    have hline := List.mem_map_of_mem (f := Row.line) ((hwhole hkeeps .plain).subset hr)
    rw [Lexicon.rows_map_line] at hline
    exact Document.spaced_scrubSpans o _ nofun nofun _ Text.visible_compactStyle
      Text.getLast?_trimEnd hline

theorem Kind.scrub_normal_of_call :
    let t := "\n  f( 1 ) ; // one\n".toList
    let r : Row := ⟨⟨"  f(1);".toList, false⟩, .code, [.code "  f(1);".toList], .code⟩
    r ∈ typeScript.lexicon.rows (Document.parse (typeScript.scrub .everything t)) ∧
      typeScript.Spaced .everything r := by
  intro t r
  have hr : r ∈ typeScript.lexicon.rows (Document.parse (typeScript.scrub .everything t)) := by
    decide +kernel
  exact ⟨hr, scrub_normal typeScript .everything t r hr⟩

end CleanCopy
