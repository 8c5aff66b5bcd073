import CleanCopy.Proofs.Lex.Steady
import CleanCopy.Proofs.Scrub.Spacing
import CleanCopy.Proofs.Scrub.Stripping
import CleanCopy.Scrub.Kind

namespace CleanCopy

open Piece Lexicon

namespace Pass

variable {x : Lexicon}

/-- A pass that is made only if it is asked for. -/
def whenever (wanted : Bool) (P : Pass x) : List (Pass x) := if wanted then [P] else []

theorem applyAll_append (Ps Qs : List (Pass x)) (d : Document) :
    applyAll (Ps ++ Qs) d = applyAll Qs (applyAll Ps d) := List.foldl_append ..

theorem applyAll_singleton (P : Pass x) (d : Document) : applyAll [P] d = P.apply d := rfl

theorem applyAll_whenever (wanted : Bool) (P : Pass x) (d : Document) :
    applyAll (whenever wanted P) d = d.passIf wanted P.apply := by
  cases wanted <;> rfl

theorem whenever_sublist (wanted : Bool) (P : Pass x) : (whenever wanted P).Sublist [P] := by
  cases wanted
  · exact List.nil_sublist _
  · exact List.Sublist.refl _

def typeScript (o : ScrubOptions) : List (Pass .typeScript) :=
  [strip typeScript_steady typeScript_detachable .plain] ++
    whenever o.stripDocs (strip typeScript_steady typeScript_detachable .doc) ++
    whenever o.stripBlankLines (blankLines typeScript_regular) ++
    whenever o.compact (compact typeScript_steady true)

def python (o : ScrubOptions) : List (Pass .python) :=
  [strip python_steady python_detachable .plain] ++
    whenever o.stripBlankLines (blankLines python_regular) ++
    whenever o.compact (trimLines python_steady)

/-- Passes that leave each other's work alone, and each its own. -/
structure Settling (Ps : List (Pass x)) : Prop where
  idempotent : ∀ P ∈ Ps, P.Idempotent
  respects : Ps.Pairwise fun P Q => Q.Respects P

theorem Settling.sublist {Ps Qs : List (Pass x)} (h : Settling Qs) (hs : Ps.Sublist Qs) :
    Settling Ps where
  idempotent P hP := h.idempotent P (hs.subset hP)
  respects := h.respects.sublist hs

theorem typeScript_settling (o : ScrubOptions) : Settling (typeScript o) := by
  have hstrip (cls : CommentClass) :=
    strip_idempotent typeScript_steady typeScript_detachable cls
  have hall : Settling [strip typeScript_steady typeScript_detachable .plain,
      strip typeScript_steady typeScript_detachable .doc, blankLines typeScript_regular,
      compact typeScript_steady true] := by
    constructor
    · simp only [List.forall_mem_cons, List.not_mem_nil, false_implies, implies_true, and_true]
      exact ⟨hstrip _, hstrip _, blankLines_idempotent _, compact_idempotent _ true⟩
    · simp only [List.pairwise_cons, List.forall_mem_cons, List.not_mem_nil, false_implies,
        implies_true, and_true, List.Pairwise.nil]
      exact ⟨⟨respects_strip .., respects_strip .., respects_strip ..⟩,
        ⟨respects_strip .., respects_strip ..⟩, compact_respects_blankLines typeScript_steady true⟩
  refine hall.sublist ?_
  exact (((List.Sublist.refl _).append (whenever_sublist ..)).append
    (whenever_sublist ..)).append (whenever_sublist ..)

theorem python_settling (o : ScrubOptions) : Settling (python o) := by
  have hall : Settling [strip python_steady python_detachable .plain, blankLines python_regular,
      trimLines python_steady] := by
    constructor
    · simp only [List.forall_mem_cons, List.not_mem_nil, false_implies, implies_true, and_true]
      exact ⟨strip_idempotent _ _ _, blankLines_idempotent _, trimLines_idempotent _⟩
    · simp only [List.pairwise_cons, List.forall_mem_cons, List.not_mem_nil, false_implies,
        implies_true, and_true, List.Pairwise.nil]
      exact ⟨⟨respects_strip .., respects_strip ..⟩, trimLines_respects_blankLines python_steady⟩
  refine hall.sublist ?_
  exact ((List.Sublist.refl _).append (whenever_sublist ..)).append (whenever_sublist ..)

end Pass

namespace Document

theorem scrubTypeScript_eq (o : ScrubOptions) (d : Document) :
    d.scrubTypeScript o = Pass.applyAll (Pass.typeScript o) d := by
  have hstrip (cls : CommentClass) :
      (Pass.strip typeScript_steady typeScript_detachable cls).apply = stripComments .typeScript cls :=
    funext (Pass.apply_strip _ _ cls)
  have hblank : (Pass.blankLines typeScript_regular).apply = removeBlankLines .typeScript :=
    funext (Pass.apply_blankLines _)
  have hcompact : (Pass.compact typeScript_steady true).apply = Document.compact .typeScript true :=
    funext (Pass.apply_compact _ true)
  simp only [Pass.typeScript, Pass.applyAll_append, Pass.applyAll_whenever, Pass.applyAll_singleton,
    hstrip, hblank, hcompact]
  rfl

theorem scrubPython_eq {o : ScrubOptions} (h : o.stripDocs = false) (d : Document) :
    d.scrubPython o = Pass.applyAll (Pass.python o) d := by
  have hstrip : (Pass.strip python_steady python_detachable .plain).apply =
      stripComments .python .plain := funext (Pass.apply_strip _ _ .plain)
  have hblank : (Pass.blankLines python_regular).apply = removeBlankLines .python :=
    funext (Pass.apply_blankLines _)
  have htrim : (Pass.trimLines python_steady).apply = trimLines .python :=
    funext (Pass.apply_trimLines _)
  simp only [Pass.python, Pass.applyAll_append, Pass.applyAll_whenever, Pass.applyAll_singleton,
    hstrip, hblank, htrim]
  rw [scrubPython, h]
  rfl

end Document

/-- A way to scrub a kind of text by passes that leave nothing to do for another time. -/
structure Pipeline (k : Kind) (o : ScrubOptions) where
  passes : List (Pass k.lexicon)
  regular : k.lexicon.Regular
  settling : Pass.Settling passes
  scrub_eq : ∀ t, k.scrub o t = (Pass.applyAll passes (Document.parse t)).render
  lacks : ∀ r : Row, r.Read k.lexicon → (∀ P ∈ passes, P.Fixes r) →
    Lacks .plain r.pieces ∧ (o.stripDocs = true → Lacks .doc r.pieces)

namespace Pipeline

def typeScript (o : ScrubOptions) : Pipeline .typeScript o where
  passes := Pass.typeScript o
  regular := typeScript_regular
  settling := Pass.typeScript_settling o
  scrub_eq t := congrArg Document.render (Document.scrubTypeScript_eq o _)
  lacks r hr h := by
    have hstrip (cls : CommentClass)
        (hm : Pass.strip typeScript_steady typeScript_detachable cls ∈ Pass.typeScript o) :
        Lacks cls r.pieces :=
      (Pass.fixes_strip typeScript_steady typeScript_detachable hr).mp (h _ hm)
    exact ⟨hstrip .plain (by simp [Pass.typeScript]),
      fun ho => hstrip .doc (by simp [Pass.typeScript, Pass.whenever, ho])⟩

def python (o : ScrubOptions) (hdocs : o.stripDocs = false) : Pipeline .python o where
  passes := Pass.python o
  regular := python_regular
  settling := Pass.python_settling o
  scrub_eq t := congrArg Document.render (Document.scrubPython_eq hdocs _)
  lacks r hr h := by
    have hm : Pass.strip python_steady python_detachable .plain ∈ Pass.python o := by
      simp [Pass.python]
    exact ⟨(Pass.fixes_strip python_steady python_detachable hr).mp (h _ hm),
      fun ho => absurd (hdocs.symm.trans ho) Bool.false_ne_true⟩

variable {k : Kind} {o : ScrubOptions}

theorem proper (p : Pipeline k o) (t : Text) :
    (Pass.applyAll p.passes (Document.parse t)).Proper k.lexicon :=
  Pass.applyAll_proper _ p.regular (Document.parse_proper _ t)

theorem fixes (p : Pipeline k o) (t : Text) :
    ∀ P ∈ p.passes, ∀ r ∈ k.lexicon.rows (Pass.applyAll p.passes (Document.parse t)),
      P.Fixes r :=
  Pass.fixes_applyAll p.regular p.settling.idempotent p.settling.respects _

theorem scrub_scrub (p : Pipeline k o) (t : Text) : k.scrub o (k.scrub o t) = k.scrub o t := by
  rw [p.scrub_eq t, p.scrub_eq]
  exact Document.render_applyAll p.regular (p.proper t) (p.fixes t)

/-- The pieces of a text that is scrubbed and read again. -/
theorem pieces_scrub (p : Pipeline k o) (t : Text) :
    (∀ r ∈ k.lexicon.rows (Document.parse (k.scrub o t)), ∀ p ∈ r.pieces,
      p.isComment .plain = false ∧ (o.stripDocs = true → p.isComment .doc = false)) ∧
    List.Forall₂ k.lexicon.SameLiteral ((k.lexicon.rows (Document.parse t)).flatMap Row.literals)
      ((k.lexicon.rows (Document.parse (k.scrub o t))).flatMap Row.literals) ∧
    visibleCode ((k.lexicon.rows (Document.parse (k.scrub o t))).flatMap Row.pieces) =
      visibleCode ((k.lexicon.rows (Document.parse t)).flatMap Row.pieces) := by
  set x := k.lexicon
  set d := Document.parse t
  rw [p.scrub_eq t]
  obtain ⟨rs, hrs, hlit, hcode⟩ := Document.rows_parse_render p.regular (p.proper t)
  have hpieces : (x.rows (Pass.applyAll p.passes d)).flatMap Row.pieces =
      (x.rows (Document.parse (Pass.applyAll p.passes d).render)).flatMap Row.pieces ++
        rs.flatMap Row.pieces := by rw [hrs, List.flatMap_append]
  refine ⟨fun r hr q hq => ?_, ?_, ?_⟩
  · have hr : r ∈ x.rows (Pass.applyAll p.passes d) := by
      rw [hrs]
      exact List.mem_append_left _ hr
    obtain ⟨hplain, hdoc⟩ := p.lacks r (x.rows_read p.regular.filled _ r hr)
      fun P hP => p.fixes t P hP r hr
    exact ⟨hplain q hq, fun ho => hdoc ho q hq⟩
  · have := Pass.literals_applyAll p.passes p.regular d
    rwa [hrs, List.flatMap_append, hlit, List.append_nil] at this
  · have := Pass.visibleCode_applyAll p.passes p.regular d
    rwa [hpieces, visibleCode_append, hcode, List.append_nil] at this

end Pipeline

namespace Kind

/-- What has been scrubbed needs no scrubbing. -/
theorem scrub_idempotent (k : Kind) (o : ScrubOptions) (t : Text)
    (hk : k = .typeScript ∨ k = .python ∧ o.stripDocs = false) :
    k.scrub o (k.scrub o t) = k.scrub o t := by
  rcases hk with rfl | ⟨rfl, hdocs⟩
  · exact (Pipeline.typeScript o).scrub_scrub t
  · exact (Pipeline.python o hdocs).scrub_scrub t

theorem scrub_idempotent_comment_at_end :
    Kind.typeScript.scrub .everything (Kind.typeScript.scrub .everything "f( 1 ) // one".toList) =
        Kind.typeScript.scrub .everything "f( 1 ) // one".toList ∧
      Kind.python.scrub .minimal (Kind.python.scrub .minimal "f(1) # one".toList) =
        Kind.python.scrub .minimal "f(1) # one".toList :=
  ⟨scrub_idempotent _ _ _ (.inl rfl), scrub_idempotent _ _ _ (.inr ⟨rfl, rfl⟩)⟩

/-- A scrubbed text has the literals and the visible code of the text, and no comments that were
to go. -/
theorem scrub_keeps_literals_and_code (k : Kind) (o : ScrubOptions) (t : Text)
    (hk : k = .typeScript ∨ k = .python ∧ o.stripDocs = false) :
    let before := k.lexicon.rows (Document.parse t)
    let after := k.lexicon.rows (Document.parse (k.scrub o t))
    (∀ r ∈ after, ∀ p ∈ r.pieces,
      p.isComment .plain = false ∧ (o.stripDocs = true → p.isComment .doc = false)) ∧
    List.Forall₂ k.lexicon.SameLiteral (before.flatMap Row.literals) (after.flatMap Row.literals) ∧
    visibleCode (after.flatMap Row.pieces) = visibleCode (before.flatMap Row.pieces) := by
  rcases hk with rfl | ⟨rfl, hdocs⟩
  · exact (Pipeline.typeScript o).pieces_scrub t
  · exact (Pipeline.python o hdocs).pieces_scrub t

/-- Comments between code, and a literal that is left open. -/
theorem scrub_keeps_literal_left_open :
    let t := "f( /* one */ 'two' ) // three\n'four ".toList
    let before := Lexicon.typeScript.rows (Document.parse t)
    let after := Lexicon.typeScript.rows (Document.parse (Kind.typeScript.scrub .everything t))
    (∀ r ∈ after, ∀ p ∈ r.pieces,
      p.isComment .plain = false ∧
        (ScrubOptions.everything.stripDocs = true → p.isComment .doc = false)) ∧
    List.Forall₂ Lexicon.typeScript.SameLiteral (before.flatMap Row.literals)
      (after.flatMap Row.literals) ∧
    visibleCode (after.flatMap Row.pieces) = visibleCode (before.flatMap Row.pieces) :=
  scrub_keeps_literals_and_code .typeScript .everything _ (.inl rfl)

end Kind

end CleanCopy
