import CleanCopy.Proofs.Scrub.Docstrings
import CleanCopy.Proofs.Scrub.Loss

namespace CleanCopy

open Piece

namespace Text

variable {t : Text}

theorem mem_spaceOutFrom {inRun : Bool} {c : Char} (h : c ∈ spaceOutFrom inRun t) :
    c ∈ t ∨ c = ' ' := by
  induction t generalizing inRun with
  | nil => cases h
  | cons d ds ih =>
    have later (h : c ∈ ds ∨ c = ' ') : c ∈ d :: ds ∨ c = ' ' := h.imp (List.mem_cons_of_mem d) id
    rw [spaceOutFrom] at h
    split at h
    · split at h
      · exact later (ih h)
      · rcases List.mem_cons.mp h with rfl | h
        · exact .inr rfl
        · exact later (ih h)
    · rcases List.mem_cons.mp h with rfl | h
      · exact .inl List.mem_cons_self
      · exact later (ih h)

theorem closeUpFrom_sublist (first second : Char) (touching : Bool) (t : Text) :
    (closeUpFrom first second touching t).Sublist t := by
  induction t generalizing touching with
  | nil => exact .slnil
  | cons c cs ih =>
    rw [closeUpFrom]
    split
    · split
      · exact (ih _).cons c
      · exact (ih _).cons_cons c
    · exact (ih _).cons_cons c

theorem mem_compactMarkup {c : Char} (h : c ∈ t.compactMarkup) : c ∈ t ∨ c = ' ' :=
  (mem_spaceOutFrom ((trimEnd_isPrefix _).subset h)).imp ((closeUpFrom_sublist ..).subset ·) id

theorem mem_compactStyle {c : Char} (h : c ∈ t.compactStyle) : c ∈ t ∨ c = ' ' := by
  have htrim := (List.dropWhile_sublist _).subset ((trimEnd_isPrefix _).subset h)
  exact mem_spaceOutFrom ((tightenFrom_sublist ..).subset htrim)

end Text

/-- A property of lines that holds of whatever scrubbing makes of a line: of a row that is spelled
with fewer comments and gaps, and of a text without blanks at its end in which no blank is new but
spaces. -/
structure Line.Durable (P : Line → Prop) : Prop where
  spelled : ∀ {x : Lexicon} {r : Row} {qs : List Piece}, x.Regular → r.Read x →
    Alters r.pieces qs → P r.line → P (r.spelled qs)
  written : ∀ {l : Line} {t : Text}, (∀ c ∈ t, CleanCopy.isBlank c = true → c ∈ l.text ∨ c = ' ') →
    (∀ c, t.getLast? = some c → CleanCopy.isBlank c = false) → P l → P (l.withText t)

theorem Line.whole_durable : Durable Whole where
  spelled hx hr hq h := hr.whole_spelled hx hq h
  written hmem hlast h :=
    ⟨fun hf => h.no_feed ((hmem _ hf (by decide)).resolve_right (by decide)),
      fun _ hc => absurd (hlast _ hc) (by decide)⟩

/-- What holds of all lines of `d` holds of all lines of `e`, and `e` ends as `d` ends. -/
structure Document.Keeps (P : Line → Prop) (d e : Document) : Prop where
  lines : (∀ l ∈ d.lines, P l) → ∀ l ∈ e.lines, P l
  closed : e.closed = d.closed

namespace Document

variable {P : Line → Prop} {x : Lexicon} {d e : Document}

theorem Keeps.trans {f : Document} (h : d.Keeps P e) (h' : e.Keeps P f) : d.Keeps P f :=
  ⟨h'.lines ∘ h.lines, h'.closed.trans h.closed⟩

theorem keeps_passIf {pass : Document → Document} (h : d.Keeps P (pass d)) (wanted : Bool) :
    d.Keeps P (d.passIf wanted pass) := by
  cases wanted
  · exact ⟨id, rfl⟩
  · exact h

variable (d)

theorem keeps_filter_rows (x : Lexicon) (keep : Row → Bool) :
    d.Keeps P (d.withLines (((x.rows d).filter keep).map Row.line)) where
  lines hd l hl := by
    refine hd l ?_
    rw [← x.rows_map_line d]
    exact (List.filter_sublist.map Row.line).subset hl
  closed := rfl

theorem keeps_removeRegions (x : Lexicon) : d.Keeps P (d.removeRegions x) := d.keeps_filter_rows x _

theorem keeps_removeBlankLines (x : Lexicon) : d.Keeps P (d.removeBlankLines x) :=
  d.keeps_filter_rows x _

variable (hP : Line.Durable P)
include hP

/-- A pass that spells rows with fewer comments and gaps or drops them. -/
theorem keeps_filterMap_rows (hx : x.Regular) {f : Row → Option Line}
    (h : ∀ {r : Row} {l : Line}, r.Read x → f r = some l →
      l = r.line ∨ ∃ qs, Alters r.pieces qs ∧ l = r.spelled qs) :
    d.Keeps P (d.withLines ((x.rows d).filterMap f)) where
  lines hd l hl := by
    obtain ⟨r, hr, hl⟩ := List.mem_filterMap.mp hl
    have hread := x.rows_read hx.filled d r hr
    have hline : P r.line := by
      refine hd _ ?_
      rw [← x.rows_map_line d]
      exact List.mem_map_of_mem hr
    rcases h hread hl with rfl | ⟨qs, hq, rfl⟩
    · exact hline
    · exact hP.spelled hx hread hq hline
  closed := rfl

theorem keeps_stripComments (hx : x.Regular) (cls : CommentClass) :
    d.Keeps P (d.stripComments x cls) := by
  refine d.keeps_filterMap_rows hP hx fun {r l} _ hl => ?_
  by_cases hlacks : Lacks cls r.pieces
  · rw [Row.withoutComments_of_lacks hlacks] at hl
    exact .inl (Option.some.inj hl).symm
  · rw [Row.withoutComments_of_not_lacks hlacks] at hl
    split at hl
    · cases hl
    · exact .inr ⟨_, alters_without cls _, (Option.some.inj hl).symm⟩

theorem keeps_map_rows (hx : x.Regular) {f : Row → Line}
    (h : ∀ {r : Row}, r.Read x → ∃ qs, Alters r.pieces qs ∧ f r = r.spelled qs) :
    d.Keeps P (d.withLines ((x.rows d).map f)) := by
  rw [← List.filterMap_eq_map]
  refine d.keeps_filterMap_rows hP hx fun hr hl => .inr ?_
  obtain ⟨qs, hq, hf⟩ := h hr
  exact ⟨qs, hq, (Option.some.inj hl).symm.trans hf⟩

theorem keeps_trimLines (hx : x.Regular) : d.Keeps P (d.trimLines x) :=
  d.keeps_map_rows hP hx fun hr => ⟨_, .refl _, hr.trimmed_eq⟩

theorem keeps_compact (hx : x.Regular) (keepIndent : Bool) : d.Keeps P (d.compact x keepIndent) :=
  d.keeps_map_rows hP hx fun {r} _ => ⟨_, alters_squeeze .., r.compact_eq keepIndent⟩

theorem keeps_removeDocstrings : d.Keeps P d.removeDocstrings where
  lines hd l hl := by
    obtain ⟨r, hr, hline⟩ := NestedRow.mem_withoutDocstrings hl
    have hrow : P r.row.line := by
      refine hd _ ?_
      rw [← Lexicon.python.rows_map_line d, ← NestedRow.map_row_ofRows 0 (Lexicon.python.rows d),
        List.map_map]
      exact List.mem_map_of_mem hr
    rcases hline with rfl | rfl
    · exact hrow
    · refine hP.written (fun c hc hb => ?_) (fun c hc => ?_) hrow
      · rcases List.mem_append.mp hc with hc | hc
        · exact .inl ((List.takeWhile_prefix _).subset hc)
        · have hpass : "pass".toList.all (!isBlank ·) = true := by decide
          exact absurd hb (by simpa using List.all_eq_true.mp hpass c hc)
      · rw [List.getLast?_append_of_ne_nil _ (by decide)] at hc
        obtain rfl := Option.some.inj hc
        decide
  closed := rfl

theorem keeps_removeSpans (spans : List Span) : d.Keeps P (d.removeSpans spans) where
  lines hd := by
    rw [removeSpans, removeSpans?]
    cases h : Line.remainders? spans 0 d.lines with
    | none => exact hd
    | some ls =>
      intro k hk
      obtain ⟨l, hl, hkeep⟩ := Line.mem_remainders? h hk
      rcases hkeep with rfl | ⟨kept, hsub, rfl⟩
      · exact hd _ hl
      · refine hP.written (fun c hc _ => .inl ?_) (fun c => Text.getLast?_trimEnd) (hd l hl)
        exact hsub ((Text.trimEnd_isPrefix kept).subset hc)
  closed := by
    rw [removeSpans, removeSpans?]
    cases Line.remainders? spans 0 d.lines <;> rfl

theorem keeps_mapLines {f : Text → Text} (h : ∀ {t : Text} {c : Char}, c ∈ f t → c ∈ t ∨ c = ' ')
    (hlast : ∀ {t : Text} {c : Char}, (f t).getLast? = some c → isBlank c = false) :
    d.Keeps P (d.mapLines f) where
  lines hd l hl := by
    obtain ⟨k, hk, rfl⟩ := List.mem_map.mp hl
    exact hP.written (fun c hc _ => h hc) (fun c => hlast) (hd k hk)
  closed := rfl

variable (o : ScrubOptions)

theorem keeps_scrubCSharp : d.Keeps P (d.scrubCSharp o) := by
  have hx := Lexicon.cSharp_regular
  refine (d.keeps_stripComments hP hx .plain).trans ?_
  refine (keeps_passIf (keeps_stripComments _ hP hx .doc) o.stripDocs).trans ?_
  refine (keeps_passIf (keeps_removeRegions _ .cSharp) o.stripRegions).trans ?_
  refine (keeps_passIf (keeps_removeBlankLines _ .cSharp) o.stripBlankLines).trans ?_
  exact keeps_passIf (keeps_compact _ hP hx false) o.compact

theorem keeps_scrubTypeScript : d.Keeps P (d.scrubTypeScript o) := by
  have hx := Lexicon.typeScript_regular
  refine (d.keeps_stripComments hP hx .plain).trans ?_
  refine (keeps_passIf (keeps_stripComments _ hP hx .doc) o.stripDocs).trans ?_
  refine (keeps_passIf (keeps_removeBlankLines _ .typeScript) o.stripBlankLines).trans ?_
  exact keeps_passIf (keeps_compact _ hP hx true) o.compact

theorem keeps_scrubPython : d.Keeps P (d.scrubPython o) := by
  have hx := Lexicon.python_regular
  refine (d.keeps_stripComments hP hx .plain).trans ?_
  refine (keeps_passIf (keeps_removeDocstrings _ hP) o.stripDocs).trans ?_
  refine (keeps_passIf (keeps_removeBlankLines _ .python) o.stripBlankLines).trans ?_
  exact keeps_passIf (keeps_trimLines _ hP hx) o.compact

theorem keeps_scrubSpans (spans : List Span) {tight : Text → Text}
    (h : ∀ {t : Text} {c : Char}, c ∈ tight t → c ∈ t ∨ c = ' ')
    (hlast : ∀ {t : Text} {c : Char}, (tight t).getLast? = some c → isBlank c = false) :
    d.Keeps P (d.scrubSpans spans tight o) := by
  refine (d.keeps_removeSpans hP spans).trans ?_
  refine (keeps_passIf (keeps_removeBlankLines _ .plain) o.stripBlankLines).trans ?_
  exact keeps_passIf (keeps_mapLines _ hP h hlast) o.compact

end Document

namespace Kind

/-- What scrubbing makes of the document that a text is read into. -/
theorem exists_keeps {P : Line → Prop} (hP : Line.Durable P) (k : Kind) (o : ScrubOptions) (t : Text) :
    ∃ d, (Document.parse t).Keeps P d ∧ k.scrub o t = d.render := by
  cases k with
  | cSharp => exact ⟨_, Document.keeps_scrubCSharp _ hP o, rfl⟩
  | typeScript => exact ⟨_, Document.keeps_scrubTypeScript _ hP o, rfl⟩
  | python => exact ⟨_, Document.keeps_scrubPython _ hP o, rfl⟩
  | html => exact ⟨_, Document.keeps_scrubSpans _ hP o _ Text.mem_compactMarkup
      Text.getLast?_trimEnd, rfl⟩
  | css => exact ⟨_, Document.keeps_scrubSpans _ hP o _ Text.mem_compactStyle
      Text.getLast?_trimEnd, rfl⟩

end Kind

end CleanCopy
