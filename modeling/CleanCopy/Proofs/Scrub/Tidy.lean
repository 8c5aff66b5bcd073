import CleanCopy.Proofs.Lex.Structure
import CleanCopy.Proofs.Lex.Tightening

namespace CleanCopy

namespace Text

theorem mem_collapseFrom {inRun : Bool} {t : Text} {c : Char} (h : c ∈ collapseFrom inRun t) :
    c ∈ t ∨ c = ' ' := by
  induction t generalizing inRun with
  | nil => cases h
  | cons d ds ih =>
    have later (h : c ∈ ds ∨ c = ' ') : c ∈ d :: ds ∨ c = ' ' := h.imp (List.mem_cons_of_mem d) id
    rw [collapseFrom] at h
    split at h
    · split at h
      · exact later (ih h)
      · rcases List.mem_cons.mp h with rfl | h
        · split
          · exact .inr rfl
          · exact .inl List.mem_cons_self
        · exact later (ih h)
    · rcases List.mem_cons.mp h with rfl | h
      · exact .inl List.mem_cons_self
      · exact later (ih h)

theorem tightenFrom_sublist (p : Char → Bool) (touching : Bool) (t : Text) :
    (tightenFrom p touching t).Sublist t := by
  induction t generalizing touching with
  | nil => exact .slnil
  | cons c cs ih =>
    rw [tightenFrom]
    split
    · split
      · exact (ih _).cons c
      · exact (ih _).cons_cons c
    · exact (ih _).cons_cons c

theorem mem_tight {t : Text} {c : Char} (h : c ∈ t.tight) : c ∈ t ∨ c = ' ' :=
  mem_collapseFrom ((tightenFrom_sublist _ _ _).subset h)

variable {keepIndent : Bool}

theorem visible_opened (keepIndent : Bool) (t : Text) :
    (t.opened keepIndent).visible = t.visible := by
  have hindent : t.indent.visible = [] := visible_eq_nil_iff.mpr <| isBlank_iff.mpr fun c hc =>
    isBlank_of_isGap (List.mem_takeWhile_imp hc)
  conv_rhs => rw [← indent_append t, visible_append, hindent]
  rw [opened, visible_append, visible_tight]
  cases keepIndent with
  | true => rw [if_pos rfl, hindent]
  | false => rfl

theorem mem_opened {t : Text} {c : Char} (h : c ∈ t.opened keepIndent) : c ∈ t ∨ c = ' ' := by
  rw [← indent_append t, List.mem_append, or_assoc]
  rcases List.mem_append.mp h with h | h
  · cases keepIndent with
    | true => exact .inl h
    | false => cases h
  · exact .inr (mem_tight h)

theorem IsTight.of_isPrefix {s t : Text} (h : IsTight t) (hp : s <+: t) : IsTight s :=
  List.IsChain.prefix h hp

theorem dropWhile_isPrefix {s t : Text} (h : s <+: t) : s.dropWhile isGap <+: t.dropWhile isGap := by
  obtain ⟨b, rfl⟩ := h
  rw [List.dropWhile_append]
  split
  · rename_i he
    rw [List.isEmpty_iff.mp he]
    exact List.nil_prefix
  · exact List.prefix_append _ _

theorem indent_isPrefix {s t : Text} (h : s <+: t) : s.indent <+: t.indent := by
  obtain ⟨b, rfl⟩ := h
  induction s with
  | nil => exact List.nil_prefix
  | cons c cs ih =>
    cases hc : isGap c with
    | true =>
      rw [List.cons_append, indent, indent, List.takeWhile_cons_of_pos hc,
        List.takeWhile_cons_of_pos hc]
      exact List.cons_prefix_cons.mpr ⟨rfl, ih⟩
    | false =>
      rw [indent, List.takeWhile_cons_of_neg (by simp [hc])]
      exact List.nil_prefix

/-- Code as compaction leaves it at the beginning of a line. -/
def IsOpened (keepIndent : Bool) (t : Text) : Prop :=
  IsTight (t.dropWhile isGap) ∧ (keepIndent = false → t.indent = [])

theorem indent_tight {t : Text} (h : t.indent = []) : t.tight.indent = [] := by
  cases t with
  | nil => rfl
  | cons c cs =>
    rw [indent, List.takeWhile_eq_nil_iff] at h
    have hc : isGap c = false := Bool.eq_false_iff.mpr (h (Nat.zero_lt_succ _))
    rw [tight, collapse, collapseFrom, hc, if_neg Bool.false_ne_true, tighten,
      tightenFrom_of_not_gap hc, indent, List.takeWhile_cons_of_neg (by simp [hc])]

theorem isOpened_opened (keepIndent : Bool) (t : Text) : IsOpened keepIndent (t.opened keepIndent) := by
  have htight := tight_isTight (t.dropWhile isGap)
  cases keepIndent with
  | true =>
    have hgap : ∀ c ∈ t.indent, isGap c = true := fun c hc => List.mem_takeWhile_imp hc
    refine ⟨?_, nofun⟩
    rw [opened, if_pos rfl, List.dropWhile_append_of_pos hgap]
    exact List.IsChain.suffix htight (List.dropWhile_suffix _)
  | false =>
    refine ⟨List.IsChain.suffix htight (List.dropWhile_suffix _), fun _ => indent_tight ?_⟩
    rw [indent, List.takeWhile_eq_nil_iff]
    exact fun _ => List.dropWhile_get_zero_not _ _ _

theorem opened_of_isOpened {t : Text} (h : IsOpened keepIndent t) : t.opened keepIndent = t := by
  rw [opened, tight_of_isTight h.1]
  conv_rhs => rw [← indent_append t]
  cases keepIndent with
  | true => rfl
  | false => rw [h.2 rfl]; rfl

theorem IsOpened.of_isPrefix {s t : Text} (h : IsOpened keepIndent t) (hp : s <+: t) :
    IsOpened keepIndent s :=
  ⟨h.1.of_isPrefix (dropWhile_isPrefix hp), fun hk =>
    List.prefix_nil.mp (h.2 hk ▸ indent_isPrefix hp)⟩

theorem IsOpened.isTight {t : Text} (h : IsOpened false t) : IsTight t := by
  have := h.1
  rwa [← List.nil_append (t.dropWhile isGap), ← h.2 rfl, indent_append] at this

end Text

namespace Piece

open Text

variable {p : Piece} {ps : List Piece} {f : Text → Text} {keepIndent first : Bool}

theorem isCode_withCode (f : Text → Text) (p : Piece) : (p.withCode f).isCode = p.isCode := by
  cases p <;> rfl

theorem Spread.map (h : Spread ps) (f : Text → Text) : Spread (ps.map (withCode f)) := by
  rw [Spread, List.isChain_map]
  simp only [isCode_withCode]
  exact h

theorem head?_trimmed {q : Piece} (h : (trimmed ps).head? = some q) :
    ∃ q', ps.head? = some q' ∧ q.isCode = q'.isCode := by
  cases ps with
  | nil => cases h
  | cons p ps =>
    refine ⟨p, rfl, ?_⟩
    rw [trimmed] at h
    split at h
    · split at h
      · cases h
      · obtain rfl := Option.some.inj h
        cases p <;> rfl
    · obtain rfl := Option.some.inj h
      rfl

theorem Spread.trimmed (h : Spread ps) : Spread (trimmed ps) := by
  induction ps with
  | nil => exact h
  | cons p ps ih =>
    obtain ⟨hhead, hps⟩ := spread_cons.mp h
    rw [Piece.trimmed]
    split
    · split
      · exact .nil
      · exact List.isChain_singleton _
    · refine spread_cons.mpr ⟨fun q hq hp => ?_, ih hps⟩
      obtain ⟨q', hq', hc⟩ := head?_trimmed hq
      rw [hc]
      exact hhead q' hq' hp

/-- Pieces with tight code; what begins a line loses its indentation or keeps it as it is. -/
def squeeze (keepIndent first : Bool) (ps : List Piece) : List Piece :=
  match first, ps with
  | true, code t :: ps => code (t.opened keepIndent) :: ps.map (withCode tight)
  | _, ps => ps.map (withCode tight)

def Tight (ps : List Piece) : Prop := ∀ t, code t ∈ ps → IsTight t

/-- Pieces as `squeeze` leaves them. -/
def Tidy (keepIndent first : Bool) (ps : List Piece) : Prop :=
  match first, ps with
  | true, code t :: ps => IsOpened keepIndent t ∧ Tight ps
  | _, ps => Tight ps

theorem tight_map (ps : List Piece) : Tight (ps.map (withCode tight)) := by
  intro t ht
  obtain ⟨p, -, hp⟩ := List.mem_map.mp ht
  cases p with
  | code u =>
    obtain rfl := Piece.code.inj hp
    exact tight_isTight u
  | literal u => cases hp
  | comment cls u => cases hp

theorem map_of_tight (h : Tight ps) : ps.map (withCode tight) = ps := by
  refine (List.map_congr_left fun p hp => ?_).trans (List.map_id ps)
  cases p with
  | code t => exact congrArg code (tight_of_isTight (h t hp))
  | literal t => rfl
  | comment cls t => rfl

theorem Tight.trimmed (h : Tight ps) : Tight (Piece.trimmed ps) := by
  induction ps with
  | nil => exact h
  | cons p ps ih =>
    have ih := ih fun t ht => h t (List.mem_cons_of_mem _ ht)
    rw [Piece.trimmed]
    split
    · split
      · exact fun t ht => absurd ht List.not_mem_nil
      · intro t ht
        cases p with
        | code u =>
          obtain rfl := Piece.code.inj (List.mem_singleton.mp ht)
          exact (h u List.mem_cons_self).of_isPrefix (trimEnd_isPrefix u)
        | literal u => cases List.mem_singleton.mp ht
        | comment cls u => cases List.mem_singleton.mp ht
    · intro t ht
      rcases List.mem_cons.mp ht with rfl | ht
      · exact h t List.mem_cons_self
      · exact ih t ht

theorem tidy_squeeze (keepIndent first : Bool) (ps : List Piece) :
    Tidy keepIndent first (squeeze keepIndent first ps) := by
  match first, ps with
  | true, code t :: ps => exact ⟨isOpened_opened keepIndent t, tight_map ps⟩
  | true, [] => exact tight_map []
  | true, literal t :: ps => exact tight_map (literal t :: ps)
  | true, comment cls t :: ps => exact tight_map (comment cls t :: ps)
  | false, ps => exact tight_map ps

theorem squeeze_of_tidy (h : Tidy keepIndent first ps) : squeeze keepIndent first ps = ps := by
  match first, ps with
  | true, code t :: ps =>
    change code (t.opened keepIndent) :: ps.map (withCode tight) = _
    rw [opened_of_isOpened h.1, map_of_tight h.2]
  | true, [] => rfl
  | true, literal t :: ps => exact map_of_tight h
  | true, comment cls t :: ps => exact map_of_tight h
  | false, ps => exact map_of_tight h

/-- What does not begin with code has no indentation to keep. -/
theorem tidy_of_head? (hp : ∀ p, ps.head? = some p → p.isCode = false) :
    Tidy keepIndent first ps ↔ Tight ps := by
  match first, ps with
  | true, code t :: ps => cases hp _ rfl
  | true, [] | true, literal t :: ps | true, comment cls t :: ps | false, ps => rfl

theorem Tidy.trimmed (h : Tidy keepIndent first ps) : Tidy keepIndent first (Piece.trimmed ps) := by
  by_cases hp : ∀ p, ps.head? = some p → p.isCode = false
  · refine (tidy_of_head? fun q hq => ?_).mpr ((tidy_of_head? hp).mp h).trimmed
    obtain ⟨q', hq', hc⟩ := head?_trimmed hq
    exact hc.trans (hp q' hq')
  · match first, ps with
    | true, code t :: ps =>
      rw [Piece.trimmed]
      split
      · split
        · exact fun t ht => absurd ht List.not_mem_nil
        · exact ⟨h.1.of_isPrefix (trimEnd_isPrefix t), fun t ht => absurd ht List.not_mem_nil⟩
      · exact ⟨h.1, Tight.trimmed h.2⟩
    | true, [] => exact h
    | true, literal t :: ps | true, comment cls t :: ps =>
      exact absurd (fun p hp => Option.some.inj hp ▸ rfl) hp
    | false, ps => exact (show Tight ps from h).trimmed

theorem Tight.filter (h : Tight ps) (p : Piece → Bool) : Tight (ps.filter p) := fun t ht =>
  h t (List.mem_filter.mp ht).1

theorem Tidy.merged (h : Tidy keepIndent first ps) (hs : Spread ps) :
    Tidy keepIndent first (merged ps) := by
  rw [merged_of_spread hs]
  match first, ps with
  | true, code [] :: ps =>
    obtain ⟨hhead, -⟩ := spread_cons.mp hs
    refine (tidy_of_head? fun p hp => ?_).mpr (Tight.filter h.2 _)
    cases ps with
    | nil => cases hp
    | cons q qs =>
      have hq := hhead q rfl rfl
      cases q with
      | code u => cases hq
      | literal u | comment cls u => exact Option.some.inj hp ▸ rfl
  | true, code (c :: t) :: ps => exact ⟨h.1, Tight.filter h.2 _⟩
  | true, [] => exact h
  | true, literal t :: ps | true, comment cls t :: ps =>
    refine (tidy_of_head? fun p hp => ?_).mpr (Tight.filter h _)
    exact Option.some.inj hp ▸ rfl
  | false, ps => exact Tight.filter h _

/-- Without indentation all code is tight. -/
theorem Tidy.tight (h : Tidy false first ps) : Tight ps := by
  match first, ps with
  | true, code t :: ps =>
    intro u hu
    rcases List.mem_cons.mp hu with hu | hu
    · exact Piece.code.inj hu ▸ h.1.isTight
    · exact h.2 u hu
  | true, [] | true, literal t :: ps | true, comment cls t :: ps | false, ps => exact h

theorem Spread.squeeze (h : Spread ps) (keepIndent first : Bool) :
    Spread (squeeze keepIndent first ps) := by
  have hmap := h.map Text.tight
  match first, ps with
  | true, code t :: ps =>
    exact spread_cons.mpr
      ⟨fun q hq _ => (spread_cons.mp hmap).1 q hq rfl, (spread_cons.mp hmap).2⟩
  | true, [] | true, literal t :: ps | true, comment cls t :: ps | false, ps => exact hmap

theorem visible_wording_map (ps : List Piece) :
    (wording (ps.map (withCode tight))).visible = (wording ps).visible := by
  induction ps with
  | nil => rfl
  | cons p ps ih =>
    rw [List.map_cons, wording_cons, wording_cons, visible_append, visible_append, ih]
    cases p with
    | code t => exact congrArg (· ++ _) (visible_tight t)
    | literal t => rfl
    | comment cls t => rfl

theorem visible_wording_squeeze (keepIndent first : Bool) (ps : List Piece) :
    (wording (squeeze keepIndent first ps)).visible = (wording ps).visible := by
  match first, ps with
  | true, code t :: ps =>
    change Text.visible (t.opened keepIndent ++ wording (ps.map (withCode tight))) = _
    rw [visible_append, visible_opened, visible_wording_map, ← visible_append]
    rfl
  | true, [] => rfl
  | true, literal t :: ps => exact visible_wording_map (literal t :: ps)
  | true, comment cls t :: ps => exact visible_wording_map (comment cls t :: ps)
  | false, ps => exact visible_wording_map ps

theorem alters_map (ps : List Piece) : Alters ps (ps.map (withCode tight)) := by
  induction ps with
  | nil => exact .nil
  | cons p ps ih =>
    cases p with
    | code t => exact .respaced (visible_tight t) (fun _ => mem_tight) ih
    | literal t => exact .same _ ih
    | comment cls t => exact .same _ ih

theorem alters_squeeze (keepIndent first : Bool) (ps : List Piece) :
    Alters ps (squeeze keepIndent first ps) := by
  match first, ps with
  | true, code t :: ps =>
    exact .respaced (visible_opened keepIndent t) (fun _ => mem_opened) (alters_map ps)
  | true, [] => exact alters_map []
  | true, literal t :: ps => exact alters_map (literal t :: ps)
  | true, comment cls t :: ps => exact alters_map (comment cls t :: ps)
  | false, ps => exact alters_map ps

end Piece

theorem Lexicon.Begins.squeeze {x : Lexicon} {k k' : Carry} {ps : List Piece} (hx : x.Steady)
    (h : x.Begins k ps k') (keepIndent : Bool) :
    x.Begins k (Piece.squeeze keepIndent (k = .code) ps) k' := by
  have hmap := h.withCode hx (mild_tight hx)
  by_cases hk : k = .code
  · rw [decide_eq_true hk]
    match ps with
    | .code t :: ps =>
      cases h with
      | code h => exact .code (h.opened hx keepIndent)
      | closed _ first _ => rw [hk] at first; cases first
      | unclosed _ last => rw [hk] at last; cases last
    | [] => exact hmap
    | .literal t :: ps => exact hmap
    | .comment cls t :: ps => exact hmap
  · rw [decide_eq_false hk]
    exact hmap

end CleanCopy
