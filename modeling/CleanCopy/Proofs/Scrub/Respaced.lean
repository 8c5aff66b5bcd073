import CleanCopy.Proofs.Lex.Steady
import CleanCopy.Proofs.Scrub.Spacing
import CleanCopy.Scrub.Kind

namespace CleanCopy

namespace Text

/-- Text `u` is text `t` with fewer gaps: some are gone, and some that stand next to each other are
written as one space. -/
inductive Respaced : Text → Text → Prop
  | nil : Respaced [] []
  | kept (c : Char) {t u : Text} (h : Respaced t u) : Respaced (c :: t) (c :: u)
  | gone {c : Char} {t u : Text} (hc : isGap c = true) (h : Respaced t u) : Respaced (c :: t) u
  | joined {c d : Char} {t u : Text} (hc : isGap c = true) (hd : isGap d = true)
      (h : Respaced t u) : Respaced (c :: d :: t) (' ' :: u)

variable {t u : Text}

theorem Respaced.refl (t : Text) : t.Respaced t := by
  induction t with
  | nil => exact .nil
  | cons c cs ih => exact .kept c ih

theorem Respaced.append_left (s : Text) (h : t.Respaced u) : Respaced (s ++ t) (s ++ u) := by
  induction s with
  | nil => exact h
  | cons c cs ih => exact .kept c ih

theorem Respaced.of_gaps {s : Text} (hs : ∀ c ∈ s, isGap c = true) (h : t.Respaced u) :
    Respaced (s ++ t) u := by
  induction s with
  | nil => exact h
  | cons c cs ih =>
    obtain ⟨hc, hcs⟩ := List.forall_mem_cons.mp hs
    exact .gone hc (ih hcs)

theorem respaced_collapseFrom (inRun : Bool) : (t : Text) → t.Respaced (collapseFrom inRun t)
  | [] => .nil
  | c :: cs => by
    rw [collapseFrom]
    by_cases hc : isGap c = true
    · rw [if_pos hc]
      cases inRun with
      | true => exact .gone hc (respaced_collapseFrom true cs)
      | false =>
        rw [if_neg Bool.false_ne_true]
        cases cs with
        | nil => exact .refl _
        | cons d ds =>
          by_cases hd : isGap d = true
          · -- The run begins here: its first two gaps are the space, and the others go.
            rw [List.head?_cons, Option.any_some, if_pos hd, collapseFrom, if_pos hd, if_pos rfl]
            exact .joined hc hd (respaced_collapseFrom true ds)
          · rw [List.head?_cons, Option.any_some, if_neg hd]
            exact .kept c (respaced_collapseFrom true (d :: ds))
    · rw [if_neg hc]
      exact .kept c (respaced_collapseFrom false cs)

theorem Respaced.tightenFrom (h : t.Respaced u) (p : Char → Bool) (touching : Bool) :
    t.Respaced (tightenFrom p touching u) := by
  induction h generalizing touching with
  | nil => exact .nil
  | @kept c t u h ih =>
    cases hc : isGap c with
    | true =>
      cases hd : touching || (u.dropWhile isGap).head?.any p with
      | true =>
        rw [tightenFrom_of_dropped hc hd]
        exact .gone hc (ih _)
      | false =>
        rw [tightenFrom_of_kept hc hd]
        exact .kept c (ih _)
    | false =>
      rw [tightenFrom_of_not_gap hc]
      exact .kept c (ih _)
  | gone hc h ih => exact .gone hc (ih _)
  | @joined c d t u hc hd h ih =>
    cases hdrop : touching || (u.dropWhile isGap).head?.any p with
    | true =>
      rw [tightenFrom_of_dropped rfl hdrop]
      exact .gone hc (.gone hd (ih _))
    | false =>
      rw [tightenFrom_of_kept rfl hdrop]
      exact .joined hc hd (ih _)

theorem respaced_tight (t : Text) : t.Respaced t.tight :=
  (respaced_collapseFrom false t).tightenFrom isPunctuation false

theorem respaced_opened (keepIndent : Bool) (t : Text) : t.Respaced (t.opened keepIndent) := by
  have htight := respaced_tight (t.dropWhile isGap)
  conv => arg 1; rw [← indent_append t]
  cases keepIndent with
  | true => exact htight.append_left _
  | false => exact htight.of_gaps fun c hc => List.mem_takeWhile_imp hc

end Text

namespace Piece

/-- Pieces with other gaps in their code, which goes whole when nothing is left of it. -/
inductive Respaced : List Piece → List Piece → Prop
  | nil : Respaced [] []
  | same (p : Piece) {ps qs : List Piece} (h : Respaced ps qs) : Respaced (p :: ps) (p :: qs)
  | code {t u : Text} {ps qs : List Piece} (text : t.Respaced u) (h : Respaced ps qs) :
      Respaced (code t :: ps) (code u :: qs)
  | gone {t : Text} {ps qs : List Piece} (text : t.Respaced []) (h : Respaced ps qs) :
      Respaced (code t :: ps) qs

/-- Pieces without blanks at their end: the last one loses them, and blank code goes whole. -/
inductive Shortened : List Piece → List Piece → Prop
  | same (ps : List Piece) : Shortened ps ps
  | last (ps : List Piece) (p : Piece) {t b : Text} (text : p.text = t ++ b)
      (blank : b.isBlank = true) : Shortened (ps ++ [p]) (ps ++ [p.withText t])
  | gone (ps : List Piece) {t : Text} (blank : t.isBlank = true) : Shortened (ps ++ [code t]) ps

variable {ps qs : List Piece}

theorem Respaced.refl (ps : List Piece) : Respaced ps ps := by
  induction ps with
  | nil => exact .nil
  | cons p ps ih => exact .same p ih

theorem filter_code_nil : [Piece.code []].filter (· ≠ Piece.code []) = [] := rfl

/-- Empty code, which a scan does not report, goes as well. -/
theorem Respaced.filter (h : Respaced ps qs) : Respaced ps (qs.filter (· ≠ Piece.code [])) := by
  induction h with
  | nil => exact .nil
  | @same p ps qs h ih =>
    by_cases hp : p = Piece.code []
    · rw [hp, List.filter_cons_of_neg (by simp)]
      exact .gone .nil ih
    · rw [List.filter_cons_of_pos (by simpa using hp)]
      exact .same p ih
  | @code t u ps qs text h ih =>
    cases u with
    | nil =>
      rw [List.filter_cons_of_neg (by simp)]
      exact .gone text ih
    | cons c cs =>
      rw [List.filter_cons_of_pos (by simp)]
      exact .code text ih
  | gone text h ih => exact .gone text ih

theorem respaced_map (ps : List Piece) : Respaced ps (ps.map (withCode Text.tight)) := by
  induction ps with
  | nil => exact .nil
  | cons p ps ih =>
    cases p with
    | code t => exact .code t.respaced_tight ih
    | literal t => exact .same _ ih
    | comment cls t => exact .same _ ih

theorem respaced_squeeze (keepIndent first : Bool) (ps : List Piece) :
    Respaced ps (squeeze keepIndent first ps) := by
  match first, ps with
  | true, code t :: ps => exact .code (t.respaced_opened keepIndent) (respaced_map ps)
  | true, [] | true, literal t :: ps | true, comment cls t :: ps | false, ps =>
    exact respaced_map _

theorem Shortened.cons (h : Shortened ps qs) (p : Piece) : Shortened (p :: ps) (p :: qs) := by
  cases h with
  | same => exact .same _
  | last ps q text blank => exact .last (p :: ps) q text blank
  | gone ps blank => exact .gone (p :: qs) blank

theorem shortened_trimEnd (ps : List Piece) (p : Piece) :
    Shortened (ps ++ [p]) (ps ++ [p.withText p.text.trimEnd]) := by
  obtain ⟨b, hb, ht⟩ := p.text.exists_trimEnd_append
  exact .last ps p ht.symm hb

theorem Shortened.filter (h : Shortened ps qs) :
    Shortened (ps.filter (· ≠ Piece.code [])) (qs.filter (· ≠ Piece.code [])) := by
  cases h with
  | same => exact .same _
  | @last ps p t b text blank =>
    rw [List.filter_append, List.filter_append]
    cases p with
    | code u =>
      obtain rfl : u = t ++ b := text
      cases t with
      | nil =>
        rw [withText, filter_code_nil, List.append_nil]
        cases b with
        | nil =>
          rw [List.nil_append, filter_code_nil, List.append_nil]
          exact .same _
        | cons c cs => exact .gone _ blank
      | cons c cs => exact .last _ (Piece.code _) rfl blank
    | literal u => exact .last _ (Piece.literal u) text blank
    | comment cls u => exact .last _ (Piece.comment cls u) text blank
  | @gone _ t blank =>
    rw [List.filter_append]
    cases t with
    | nil =>
      rw [filter_code_nil, List.append_nil]
      exact .same _
    | cons c cs => exact .gone _ blank

end Piece

namespace Lexicon

open Piece

variable {x : Lexicon} {odd : Bool} {p : Piece} {ps : List Piece} {k k' : Carry}

/-- Blank pieces that a scan reports are one piece of code at most. -/
theorem Reads.eq_code_of_isBlank (hx : x.Regular) (h : x.Reads odd ps k) (hs : Spread ps)
    (hb : (wording ps).isBlank = true) :
    ps = [] ∨ ∃ t : Text, ps = [.code t] ∧ t.isBlank = true := by
  have hcode := (h.of_isBlank hx hb).1
  cases ps with
  | nil => exact .inl rfl
  | cons p ps =>
    obtain ⟨hp, hps⟩ := List.forall_mem_cons.mp hcode
    cases ps with
    | nil =>
      cases p with
      | code t => exact .inr ⟨t, rfl, by rwa [wording_cons, wording_nil, List.append_nil] at hb⟩
      | literal t => cases hp
      | comment cls t => cases hp
    | cons q qs => cases ((spread_cons.mp hs).1 q rfl hp).symm.trans (hps q List.mem_cons_self)

theorem Sealed.shortened_trimmed (hx : x.Regular) (h : x.Sealed p) (later : x.Reads odd ps k)
    (hs : Spread ps) (ih : Shortened ps (Piece.trimmed ps)) :
    Shortened (p :: ps) (Piece.trimmed (p :: ps)) := by
  rw [h.trimmed_cons hx]
  split
  · rename_i hb
    rcases later.eq_code_of_isBlank hx hs hb with rfl | ⟨t, rfl, ht⟩
    · exact .same _
    · exact .gone [p] ht
  · exact ih.cons p

theorem Reads.shortened_trimmed (hx : x.Regular) (h : x.Reads odd ps k) (hs : Spread ps) :
    Shortened ps (Piece.trimmed ps) := by
  induction h with
  | done => exact .same _
  | @code odd t ps k free later ih =>
    have hs := (spread_cons.mp hs)
    rw [Piece.trimmed]
    split
    · rename_i hb
      rcases later.eq_code_of_isBlank hx hs.2 hb with rfl | ⟨u, rfl, -⟩
      · split
        · rename_i ht
          exact .gone [] (Bool.and_eq_true_iff.mp ht).2
        · exact shortened_trimEnd [] (.code t)
      · cases hs.1 _ rfl rfl
    · exact (ih hs.2).cons _
  | closed first later ih =>
    have hs := (spread_cons.mp hs).2
    exact (sealed_of_lexeme? first).shortened_trimmed hx later hs (ih hs)
  | @unclosed odd p k last =>
    rw [Piece.trimmed_singleton (not_code_of_unclosed last)]
    exact shortened_trimEnd [] p

/-- Trimming a line shortens the last of its pieces, or takes it if it is blank code. -/
theorem Begins.shortened_trimmed (hx : x.Regular) (h : x.Begins k ps k') (hs : Spread ps) :
    Shortened ps (Piece.trimmed ps) := by
  cases h with
  | code h => exact h.shortened_trimmed hx hs
  | closed fits first later =>
    have hs := (spread_cons.mp hs).2
    exact (sealed_of_resume? fits first).shortened_trimmed hx later hs
      (later.shortened_trimmed hx hs)
  | @unclosed _ p fits last =>
    rw [Piece.trimmed_singleton (not_code_of_resume? last)]
    exact shortened_trimEnd [] p

end Lexicon

/-- Row `r'` is row `r` with fewer gaps in its code and, unless it ends inside a literal, without
the blanks at its end. -/
structure Row.Respaced (r r' : Row) : Prop where
  before : r'.before = r.before
  after : r'.after = r.after
  cr : r'.line.cr = r.line.cr
  pieces : ∃ qs, Piece.Respaced r.pieces qs ∧
    (r'.pieces = qs ∨ r.after.inLiteral = false ∧ Piece.Shortened qs r'.pieces)

namespace Row

variable {x : Lexicon} {r : Row} {qs : List Piece}

/-- A row that is spelled by the same pieces with fewer gaps. -/
theorem Respaced.spelled (hx : x.Steady) (hb : x.Begins r.before qs r.after) (hs : Piece.Spread qs)
    (h : Piece.Respaced r.pieces qs) : r.Respaced (r.rewritten x id (r.spelled qs)) where
  before := rfl
  after := rfl
  cr := rfl
  pieces := by
    refine ⟨qs.filter (· ≠ Piece.code []), h.filter, ?_⟩
    rw [pieces_rewritten (g := id) hx rfl hb, ended]
    cases ho : r.after.inLiteral with
    | true =>
      rw [if_pos rfl, Piece.merged_of_spread hs]
      exact .inl rfl
    | false =>
      rw [if_neg Bool.false_ne_true, Piece.merged_of_spread hs.trimmed]
      exact .inr ⟨rfl, (hb.shortened_trimmed hx.regular hs).filter⟩

end Row

namespace Pass

variable {x : Lexicon}

/-- What is read of a document without blank lines is what was read of the others. -/
theorem rows_removeBlankLines (hx : x.Regular) (d : Document) : x.rows (d.removeBlankLines x) =
    (x.rows d).filter fun r => r.before.inLiteral || !r.line.isBlank := by
  rw [← apply_blankLines hx, rows_apply _ hx, row_blankLines, List.filterMap_eq_filter]

theorem respaced_trimLines (hx : x.Steady) (d : Document) :
    List.Forall₂ Row.Respaced (x.rows d) (x.rows (d.trimLines x)) := by
  rw [← apply_trimLines hx, rows_apply _ hx.regular]
  change List.Forall₂ _ _ ((x.rows d).filterMap (some ∘ fun r => r.rewritten x id r.trimmed))
  rw [List.filterMap_eq_map, List.forall₂_map_right_iff, List.forall₂_same]
  intro r hr
  have hr := x.rows_read hx.regular.filled d r hr
  rw [hr.trimmed_eq]
  exact .spelled hx hr.begins hr.spread (.refl _)

theorem respaced_compact (hx : x.Steady) (keepIndent : Bool) (d : Document) :
    List.Forall₂ Row.Respaced (x.rows d) (x.rows (d.compact x keepIndent)) := by
  rw [← apply_compact hx, rows_apply _ hx.regular]
  change List.Forall₂ _ _ ((x.rows d).filterMap (some ∘ fun r =>
    r.rewritten x id (r.compact keepIndent)))
  rw [List.filterMap_eq_map, List.forall₂_map_right_iff, List.forall₂_same]
  intro r hr
  have hr := x.rows_read hx.regular.filled d r hr
  rw [r.compact_eq]
  exact .spelled hx (hr.begins.squeeze hx keepIndent) (hr.spread.squeeze ..)
    (Piece.respaced_squeeze ..)

end Pass

namespace Kind

theorem lexicon_steady : (k : Kind) → k.lexicon.Steady
  | cSharp => Lexicon.cSharp_steady
  | typeScript => Lexicon.typeScript_steady
  | python => Lexicon.python_steady
  | html | css => Lexicon.plain_steady

/-- The passes over whitespace do not change how the text that they leave is read: each line goes on
with what it went on with before and leaves open what it left open, in the same comments and
literals. Lines that go are blank and stand outside literals. -/
theorem rows_respaced (k : Kind) (d : Document) :
    let x := k.lexicon
    x.rows (d.removeBlankLines x) =
        (x.rows d).filter (fun r => r.before.inLiteral || !r.line.isBlank) ∧
      List.Forall₂ Row.Respaced (x.rows d) (x.rows (d.trimLines x)) ∧
      ∀ keepIndent, List.Forall₂ Row.Respaced (x.rows d) (x.rows (d.compact x keepIndent)) :=
  have hx := k.lexicon_steady
  ⟨Pass.rows_removeBlankLines hx.regular d, Pass.respaced_trimLines hx d,
    fun keepIndent => Pass.respaced_compact hx keepIndent d⟩

end Kind

end CleanCopy
