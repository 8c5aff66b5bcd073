import CleanCopy.Proofs.Lex.Trimming

namespace CleanCopy

namespace Text

variable {r r' t : Text}

theorem Leads.refl (r : Text) : r.Leads r := List.takeWhile_prefix _

/-- The code that a line begins with, on which its indentation stays or goes whole. -/
def opened (keepIndent : Bool) (t : Text) : Text :=
  (if keepIndent then t.indent else []) ++ tight (t.dropWhile isGap)

theorem indent_append (t : Text) : t.indent ++ t.dropWhile isGap = t :=
  List.takeWhile_append_dropWhile ..

/-- What is made of the characters of delimiters does not come to begin a text. -/
theorem Leads.isPrefix {s : Text} (h : r.Leads r') (hs : ∀ c ∈ s, isFirm c = true)
    (hp : s <+: r') : s <+: r := by
  obtain ⟨u, rfl⟩ := hp
  rw [Leads, List.takeWhile_append_of_pos hs] at h
  exact (List.prefix_append s _).trans h

theorem Leads.trans {r'' : Text} (h : r.Leads r') (h' : r'.Leads r'') : r.Leads r'' :=
  h.isPrefix (fun _ hc => List.mem_takeWhile_imp hc) h'

theorem Leads.cons (h : r.Leads r') (c : Char) : Text.Leads (c :: r) (c :: r') := by
  rw [Leads]
  cases hc : isFirm c with
  | true =>
    rw [List.takeWhile_cons_of_pos hc]
    exact List.cons_prefix_cons.mpr ⟨rfl, h⟩
  | false =>
    rw [List.takeWhile_cons_of_neg (by simp [hc])]
    exact List.nil_prefix

theorem Leads.append_left (h : r.Leads r') (t : Text) : Text.Leads (t ++ r) (t ++ r') := by
  induction t with
  | nil => exact h
  | cons c cs ih => exact ih.cons c

theorem leads_of_not_firm {c : Char} (hc : isFirm c = false) (r t : Text) : r.Leads (c :: t) := by
  rw [Leads, List.takeWhile_cons_of_neg (by simp [hc])]
  exact List.nil_prefix

theorem isFirm_of_isGap {c : Char} (h : isGap c = true) : isFirm c = false := by
  rw [isFirm, h]
  rfl

theorem isFirm_of_isPunctuation {c : Char} (h : isPunctuation c = true) : isFirm c = false := by
  rw [isFirm, h, Bool.not_true, Bool.and_false]

theorem leads_collapse (h : r.Leads r') (t : Text) : Text.Leads (t ++ r) (t.collapse ++ r') := by
  induction t with
  | nil => exact h
  | cons c cs ih =>
    rw [collapse, collapseFrom]
    by_cases hc : isGap c = true
    · rw [if_pos hc, if_neg Bool.false_ne_true]
      refine leads_of_not_firm (isFirm_of_isGap ?_) _ _
      split
      · rfl
      · exact hc
    · rw [if_neg hc]
      exact ih.cons c

/-- Gaps before punctuation go, so the punctuation comes first. -/
theorem head?_tightenFrom {p : Char → Bool} (h : (t.dropWhile isGap).head?.any p = true) :
    (tightenFrom p false t).head? = (t.dropWhile isGap).head? := by
  induction t with
  | nil => rfl
  | cons c cs ih =>
    cases hc : isGap c with
    | true =>
      rw [List.dropWhile_cons_of_pos hc] at h ⊢
      rw [tightenFrom_of_dropped hc (by rw [h, Bool.or_true]), ih h]
    | false =>
      rw [tightenFrom_of_not_gap hc, List.dropWhile_cons_of_neg (by simp [hc])]
      rfl

theorem leads_tighten (h : r.Leads r') (t : Text) :
    Text.Leads (t ++ r) (t.tighten isPunctuation ++ r') := by
  induction t with
  | nil => exact h
  | cons c cs ih =>
    rw [tighten]
    cases hc : isGap c with
    | false =>
      rw [tightenFrom_of_not_gap hc]
      cases hp : isPunctuation c with
      | true => exact leads_of_not_firm (isFirm_of_isPunctuation hp) _ _
      | false => exact ih.cons c
    | true =>
      cases hp : (cs.dropWhile isGap).head?.any isPunctuation with
      | false =>
        rw [tightenFrom_of_kept hc (by rw [hp]; rfl)]
        exact leads_of_not_firm (isFirm_of_isGap hc) _ _
      | true =>
        -- The punctuation behind the gap comes first.
        rw [tightenFrom_of_dropped hc (by rw [hp]; rfl)]
        have hhead := head?_tightenFrom hp
        cases ht : tightenFrom isPunctuation false cs with
        | nil => rw [← hhead, ht] at hp; cases hp
        | cons d ds =>
          rw [← hhead, ht] at hp
          exact leads_of_not_firm (isFirm_of_isPunctuation hp) _ _

end Text

namespace Piece

/-- The piece with its code rewritten. -/
def withCode (f : Text → Text) : Piece → Piece
  | code t => code (f t)
  | p => p

theorem withCode_of_not_code {p : Piece} (h : p.isCode = false) (f : Text → Text) :
    p.withCode f = p := by
  cases p with
  | code t => cases h
  | literal t => rfl
  | comment cls t => rfl

end Piece

namespace Escape

theorem ne_backslash_of_isGap {c : Char} (h : isGap c = true) : c ≠ '\\' := by
  rintro rfl
  cases h

theorem oddAfter_indent (t : Text) : oddAfter false t.indent = false :=
  oddAfter_of_notMem fun h => ne_backslash_of_isGap (List.mem_takeWhile_imp h) rfl

theorem ne_backslash_of_isPunctuation {c : Char} (h : isPunctuation c = true) : c ≠ '\\' := by
  rintro rfl
  cases h

end Escape

namespace Lexicon

open Piece Text Escape

/-- A rewriting of code that brings no token about, and after which no token is escaped that was not. -/
structure Mild (x : Lexicon) (f : Text → Text) : Prop where
  leads : ∀ {r r' : Text}, r.Leads r' → ∀ t : Text, Text.Leads (t ++ r) (f t ++ r')
  passes : ∀ {odd : Bool} {r r' t : Text}, r.Leads r' → x.Passes r odd t → x.Passes r' odd (f t)
  odd : ∀ (odd : Bool) (t : Text), oddAfter odd (f t) = oddAfter odd t

variable {x : Lexicon} {odd odd' inRun touching : Bool} {t r r' : Text} {c : Char} {f g : Text → Text}
  {p : Piece} {ps : List Piece} {k k' : Carry}

theorem Mild.comp (hg : x.Mild g) (hf : x.Mild f) : x.Mild (g ∘ f) where
  leads h t := (hf.leads (Leads.refl _) t).trans (hg.leads h (f t))
  passes h hp := hg.passes h (hf.passes (Leads.refl _) hp)
  odd odd t := (hg.odd odd (f t)).trans (hf.odd odd t)

theorem oddAfter_collapseFrom (h : inRun = true → odd = false) :
    oddAfter odd (collapseFrom inRun t) = oddAfter odd t := by
  induction t generalizing inRun odd with
  | nil => rfl
  | cons c cs ih =>
    rw [collapseFrom]
    by_cases hc : isGap c = true
    · rw [if_pos hc, oddAfter_cons_of_ne (ne_backslash_of_isGap hc)]
      cases inRun with
      | true =>
        rw [if_pos rfl, h rfl]
        exact ih fun _ => rfl
      | false =>
        have hne : (if cs.head?.any isGap = true then ' ' else c) ≠ '\\' := by
          split
          · decide
          · exact ne_backslash_of_isGap hc
        rw [if_neg Bool.false_ne_true, oddAfter_cons_of_ne hne]
        exact ih fun _ => rfl
    · rw [if_neg hc]
      exact ih fun h => absurd h Bool.false_ne_true

theorem passes_collapseFrom (hx : x.Steady) (hr : r.Leads r') (h : inRun = true → odd = false)
    (hp : x.Passes r odd t) : x.Passes r' odd (collapseFrom inRun t) := by
  induction t generalizing inRun odd with
  | nil => trivial
  | cons c cs ih =>
    obtain ⟨hn, hp⟩ := hp
    rw [collapseFrom]
    by_cases hc : isGap c = true
    · have hodd : (c == '\\' && !odd) = false := by
        rw [beq_eq_false_iff_ne.mpr (ne_backslash_of_isGap hc), Bool.false_and]
      rw [hodd] at hp
      rw [if_pos hc]
      cases inRun with
      | true =>
        rw [if_pos rfl, h rfl]
        exact ih (fun _ => rfl) hp
      | false =>
        have hgap : isGap (if cs.head?.any isGap = true then ' ' else c) = true := by
          split
          · rfl
          · exact hc
        rw [if_neg Bool.false_ne_true]
        refine ⟨lexeme?_eq_none_iff.mpr (.inr (hx.regular.token?_of_isBlank
          (isBlank_of_isGap hgap) _)), ?_⟩
        rw [beq_eq_false_iff_ne.mpr (ne_backslash_of_isGap hgap), Bool.false_and]
        exact ih (fun _ => rfl) hp
    · rw [if_neg hc]
      refine ⟨?_, ih (fun h => absurd h Bool.false_ne_true) hp⟩
      exact (hx.allows (leads_collapse hr cs)).lexeme?_eq_none (s := []) hn

theorem mild_collapse (hx : x.Steady) : x.Mild collapse where
  leads h t := leads_collapse h t
  passes hr hp := passes_collapseFrom hx hr (fun h => absurd h Bool.false_ne_true) hp
  odd _ _ := oddAfter_collapseFrom fun h => absurd h Bool.false_ne_true

/-- What the text written so far and the text read so far have in common: the next visible character
is escaped in neither or in both, or it is punctuation, which opens nothing and escapes nothing. -/
structure Aligned (touching odd odd' : Bool) (t : Text) : Prop where
  touched : touching = true → odd' = false
  same : odd' = odd ∨ (t.dropWhile isGap).head?.any isPunctuation = true

theorem Aligned.dropped {cs : Text}
    (hd : (touching || (cs.dropWhile isGap).head?.any isPunctuation) = true)
    (h : Aligned touching odd odd' (c :: cs)) : Aligned touching false odd' cs := by
  refine ⟨h.touched, ?_⟩
  rcases Bool.or_eq_true_iff.mp hd with ht | hp
  · exact .inl (h.touched ht)
  · exact .inr hp

theorem Aligned.not_gap {cs : Text} (hc : isGap c = false)
    (h : Aligned touching odd odd' (c :: cs)) :
    Aligned (isPunctuation c) (c == '\\' && !odd) (c == '\\' && !odd') cs := by
  have hsame := h.same
  rw [List.dropWhile_cons_of_neg (by simp [hc]), List.head?_cons, Option.any_some] at hsame
  constructor
  · intro hp
    rw [beq_eq_false_iff_ne.mpr (ne_backslash_of_isPunctuation hp), Bool.false_and]
  · left
    rcases hsame with rfl | hp
    · rfl
    · rw [beq_eq_false_iff_ne.mpr (ne_backslash_of_isPunctuation hp), Bool.false_and, Bool.false_and]

theorem oddAfter_tightenFrom (h : Aligned touching odd odd' t) :
    oddAfter odd' (tightenFrom isPunctuation touching t) = oddAfter odd t := by
  induction t generalizing touching odd odd' with
  | nil => exact h.same.resolve_right Bool.false_ne_true
  | cons c cs ih =>
    cases hc : isGap c with
    | true =>
      rw [oddAfter_cons_of_ne (ne_backslash_of_isGap hc)]
      cases hd : touching || (cs.dropWhile isGap).head?.any isPunctuation with
      | true =>
        rw [tightenFrom_of_dropped hc hd]
        exact ih (h.dropped hd)
      | false =>
        rw [tightenFrom_of_kept hc hd, oddAfter_cons_of_ne (ne_backslash_of_isGap hc)]
        exact ih ⟨fun h => absurd h Bool.false_ne_true, .inl rfl⟩
    | false =>
      rw [tightenFrom_of_not_gap hc]
      exact ih (h.not_gap hc)

theorem passes_tightenFrom (hx : x.Steady) (hr : r.Leads r') (h : Aligned touching odd odd' t)
    (hp : x.Passes r odd t) : x.Passes r' odd' (tightenFrom isPunctuation touching t) := by
  induction t generalizing touching odd odd' with
  | nil => trivial
  | cons c cs ih =>
    obtain ⟨hn, hp⟩ := hp
    cases hc : isGap c with
    | true =>
      have hodd (b : Bool) : (c == '\\' && !b) = false := by
        rw [beq_eq_false_iff_ne.mpr (ne_backslash_of_isGap hc), Bool.false_and]
      rw [hodd] at hp
      cases hd : touching || (cs.dropWhile isGap).head?.any isPunctuation with
      | true =>
        rw [tightenFrom_of_dropped hc hd]
        exact ih (h.dropped hd) hp
      | false =>
        rw [tightenFrom_of_kept hc hd]
        refine ⟨lexeme?_eq_none_iff.mpr (.inr (hx.regular.token?_of_isBlank
          (isBlank_of_isGap hc) _)), ?_⟩
        rw [hodd]
        exact ih ⟨fun h => absurd h Bool.false_ne_true, .inl rfl⟩ hp
    | false =>
      rw [tightenFrom_of_not_gap hc]
      refine ⟨?_, ih (h.not_gap hc) hp⟩
      cases hpc : isPunctuation c with
      | true => exact lexeme?_eq_none_iff.mpr (.inr (hx.inert c _ hpc))
      | false =>
        have hsame := h.same
        rw [List.dropWhile_cons_of_neg (by simp [hc]), List.head?_cons, Option.any_some, hpc] at hsame
        rw [hsame.resolve_right Bool.false_ne_true]
        exact (hx.allows (leads_tighten hr cs)).lexeme?_eq_none (s := []) hn

theorem mild_tighten (hx : x.Steady) : x.Mild (tighten isPunctuation) where
  leads h t := leads_tighten h t
  passes hr hp := passes_tightenFrom hx hr ⟨fun h => absurd h Bool.false_ne_true, .inl rfl⟩ hp
  odd _ _ := oddAfter_tightenFrom ⟨fun h => absurd h Bool.false_ne_true, .inl rfl⟩

theorem mild_tight (hx : x.Steady) : x.Mild tight := (mild_tighten hx).comp (mild_collapse hx)

theorem oddAfter_opened (hx : x.Steady) (keepIndent : Bool) (t : Text) :
    oddAfter false (t.opened keepIndent) = oddAfter false t := by
  have hindent : oddAfter false (if keepIndent then t.indent else []) = false := by
    cases keepIndent with
    | true => exact oddAfter_indent t
    | false => rfl
  rw [opened, oddAfter_append, hindent, (mild_tight hx).odd]
  conv_rhs => rw [← indent_append t, oddAfter_append, oddAfter_indent]

theorem passes_opened (hx : x.Steady) (hr : r.Leads r') (keepIndent : Bool)
    (hp : x.Passes r false t) : x.Passes r' false (t.opened keepIndent) := by
  rw [← indent_append t, passes_append, oddAfter_indent] at hp
  obtain ⟨hindent, hrest⟩ := hp
  have htight := (mild_tight hx).passes hr hrest
  cases keepIndent with
  | true =>
    rw [opened, if_pos rfl, passes_append, oddAfter_indent]
    exact ⟨hindent.congr (hx.allows ((mild_tight hx).leads hr _)), htight⟩
  | false => exact htight

theorem Mild.leads_wording (hf : x.Mild f) (ps : List Piece) :
    Text.Leads (wording ps) (wording (ps.map (withCode f))) := by
  induction ps with
  | nil => exact Leads.refl _
  | cons p ps ih =>
    rw [List.map_cons, wording_cons, wording_cons]
    cases p with
    | code t => exact hf.leads ih t
    | literal t => exact ih.append_left t
    | comment cls t => exact ih.append_left t

theorem Reads.withCode (hx : x.Steady) (hf : x.Mild f) (h : x.Reads odd ps k) :
    x.Reads odd (ps.map (Piece.withCode f)) k := by
  induction h with
  | done => exact .done _
  | @code odd t ps k free later ih =>
    refine .code (hf.passes (hf.leads_wording ps) free) ?_
    rw [hf.odd]
    exact ih
  | @closed odd p ps k first later ih =>
    rw [List.map_cons, withCode_of_not_code (sealed_of_lexeme? first).not_code]
    exact .closed ((hx.allows (hf.leads_wording ps)).lexeme? hx.regular first) ih
  | unclosed last =>
    rw [List.map_cons, withCode_of_not_code (not_code_of_unclosed last)]
    exact .unclosed last

/-- The code that a line begins with may lose its indentation or keep it as it is. -/
theorem Reads.opened (hx : x.Steady) (keepIndent : Bool) (h : x.Reads false (.code t :: ps) k) :
    x.Reads false (.code (t.opened keepIndent) :: ps.map (Piece.withCode tight)) k := by
  obtain ⟨free, later⟩ := reads_code_iff.mp h
  refine .code (passes_opened hx ((mild_tight hx).leads_wording ps) keepIndent free) ?_
  rw [oddAfter_opened hx]
  exact later.withCode hx (mild_tight hx)

theorem Begins.withCode (hx : x.Steady) (hf : x.Mild f) (h : x.Begins k ps k') :
    x.Begins k (ps.map (Piece.withCode f)) k' := by
  cases h with
  | code h => exact .code (h.withCode hx hf)
  | @closed _ _ p ps fits first later =>
    rw [List.map_cons, withCode_of_not_code (sealed_of_resume? fits first).not_code]
    exact .closed fits ((hx.allows (hf.leads_wording ps)).resume? hx.regular fits first)
      (later.withCode hx hf)
  | unclosed fits last =>
    rw [List.map_cons, withCode_of_not_code (not_code_of_resume? last)]
    exact .unclosed fits last

end Lexicon

end CleanCopy
