import CleanCopy.Proofs.Lex.Structure
import CleanCopy.Proofs.Text.Lines

namespace CleanCopy

open Piece

/-- The literals of a row, each with whether the row leaves a literal open. -/
def Row.literals (r : Row) : List (Text × Bool) :=
  (Piece.literals r.pieces).map (·, r.after.inLiteral)

/-- Equal literals, but for blanks at the end of one that should end with its line and does not. -/
def Lexicon.SameLiteral (x : Lexicon) (a b : Text × Bool) : Prop :=
  a = b ∨ a.2 = false ∧ x.LeftOpen a.1 ∧ b = (a.1.trimEnd, false)

/-- What a scan says of a row. -/
structure Row.Read (x : Lexicon) (r : Row) : Prop where
  begins : x.Begins r.before r.pieces r.after
  spells : wording r.pieces = r.line.text
  joined : merged r.pieces = r.pieces

/-- Row `r'` stands for row `r` in a document with fewer comments and gaps. -/
structure Row.Rewrites (x : Lexicon) (g : Carry → Carry) (r r' : Row) : Prop where
  read : r'.Read x
  before : r'.before = g r.before
  after : r'.after = g r.after
  cr : r'.line.cr = r.line.cr
  whole : r.line.Whole → r'.line.Whole
  empty : r.before.inLiteral = true → r'.line.text = [] → r.line.text = []
  literals : List.Forall₂ x.SameLiteral r.literals r'.literals
  code : visibleCode r'.pieces = visibleCode r.pieces
  lacks : ∀ {cls : CommentClass}, Lacks cls r.pieces → Lacks cls r'.pieces

/-- Row `r` may go: it holds nothing but comments and gaps, and what it leaves open is open before. -/
structure Row.Idle (g : Carry → Carry) (r : Row) : Prop where
  carry : g r.after = g r.before
  outside : r.before.inLiteral = false
  literals : r.literals = []
  code : visibleCode r.pieces = []

/-- A rewriting of a document row by row that keeps literals and visible code. -/
structure Pass (x : Lexicon) where
  row : Row → Option Row
  carry : Carry → Carry
  carry_code : carry .code = .code
  inLiteral_carry : ∀ k, (carry k).inLiteral = k.inLiteral
  kept : ∀ {r r' : Row}, r.Read x → row r = some r' → r.Rewrites x carry r'
  dropped : ∀ {r : Row}, r.Read x → row r = none → r.Idle carry

variable {x : Lexicon} {r r' : Row} {g : Carry → Carry} {k : Carry} {ls : List Line} {d : Document}

theorem Row.literals_of_eq_nil (h : Piece.literals r.pieces = []) : r.literals = [] := by
  rw [literals, h, List.map_nil]

namespace Lexicon

theorem SameLiteral.trans {a b c : Text × Bool} (h : x.SameLiteral a b) (h' : x.SameLiteral b c) :
    x.SameLiteral a c := by
  rcases h with rfl | ⟨ha, hopen, rfl⟩
  · exact h'
  · rcases h' with rfl | ⟨-, -, rfl⟩
    · exact .inr ⟨ha, hopen, rfl⟩
    · exact .inr ⟨ha, hopen, congrArg (·, false) (Text.trimEnd_trimEnd a.1)⟩

theorem sameLiterals_refl (x : Lexicon) (as : List (Text × Bool)) :
    List.Forall₂ x.SameLiteral as as :=
  List.forall₂_same.mpr fun _ _ => .inl rfl

theorem sameLiterals_trans {as bs cs : List (Text × Bool)} (h : List.Forall₂ x.SameLiteral as bs)
    (h' : List.Forall₂ x.SameLiteral bs cs) : List.Forall₂ x.SameLiteral as cs := by
  induction h generalizing cs with
  | nil => exact h'
  | cons h _ ih =>
    cases h' with
    | cons h' hs => exact .cons (h.trans h') (ih hs)

theorem sameLiterals_of_sameTexts {ss ts : List Text} (h : List.Forall₂ x.SameText ss ts) :
    List.Forall₂ x.SameLiteral (ss.map (·, false)) (ts.map (·, false)) := by
  induction h with
  | nil => exact .nil
  | cons h _ ih =>
    refine .cons ?_ ih
    rcases h with rfl | ⟨hopen, rfl⟩
    · exact .inl rfl
    · exact .inr ⟨rfl, hopen, rfl⟩

end Lexicon

theorem Row.Read.scan_eq (hx : x.Filled) (h : r.Read x) :
    x.scan r.before r.line.text = ⟨r.pieces, r.after⟩ := by
  rw [← h.spells, h.begins.scan_eq hx, h.joined]

namespace Lexicon

theorem rowsFrom_read (hx : x.Filled) (hk : k.Fits x) (ls : List Line) :
    ∀ r ∈ x.rowsFrom k ls, r.Read x := by
  induction ls generalizing k with
  | nil => exact fun r h => absurd h List.not_mem_nil
  | cons l ls ih =>
    obtain ⟨hb, hw, hm⟩ := begins_scan hx hk l.text
    intro r hr
    rw [rowsFrom] at hr
    rcases List.mem_cons.mp hr with rfl | hr
    · exact ⟨hb, hw, hm⟩
    · exact ih hb.fits r hr

theorem rows_read (hx : x.Filled) (d : Document) : ∀ r ∈ x.rows d, r.Read x :=
  rowsFrom_read hx (k := .code) trivial d.lines

theorem rowsFrom_map_line (x : Lexicon) (k : Carry) (ls : List Line) :
    (x.rowsFrom k ls).map Row.line = ls := by
  induction ls generalizing k with
  | nil => rfl
  | cons l ls ih => rw [rowsFrom, List.map_cons, ih]

theorem rows_map_line (x : Lexicon) (d : Document) : (x.rows d).map Row.line = d.lines :=
  rowsFrom_map_line x .code d.lines

theorem rowsFrom_prefix (x : Lexicon) (k : Carry) {ls ms : List Line} (h : ls <+: ms) :
    x.rowsFrom k ls <+: x.rowsFrom k ms := by
  induction ls generalizing k ms with
  | nil => exact List.nil_prefix
  | cons l ls ih =>
    obtain ⟨rest, rfl⟩ := h
    rw [List.cons_append, rowsFrom, rowsFrom]
    exact List.cons_prefix_cons.mpr ⟨rfl, ih _ (List.prefix_append ls rest)⟩

end Lexicon

namespace Pass

variable (P : Pass x)

/-- The document with its rows rewritten. -/
def apply (d : Document) : Document := d.withLines (((x.rows d).filterMap P.row).map Row.line)

theorem rowsFrom_filterMap (hx : x.Regular) (hk : k.Fits x) (ls : List Line) :
    x.rowsFrom (P.carry k) (((x.rowsFrom k ls).filterMap P.row).map Row.line) =
      (x.rowsFrom k ls).filterMap P.row := by
  induction ls generalizing k with
  | nil => rfl
  | cons l ls ih =>
    rw [Lexicon.rowsFrom]
    set r : Row := ⟨l, k, (x.scan k l.text).pieces, (x.scan k l.text).after⟩
    obtain ⟨hb, hw, hm⟩ := Lexicon.begins_scan hx.filled hk l.text
    have hr : r.Read x := ⟨hb, hw, hm⟩
    have ih := ih hb.fits
    cases hrow : P.row r with
    | none =>
      rw [List.filterMap_cons_none hrow]
      rwa [(P.dropped hr hrow).carry] at ih
    | some r' =>
      have hk' := P.kept hr hrow
      have hscan := hk'.read.scan_eq hx.filled
      rw [hk'.before, hk'.after] at hscan
      rw [List.filterMap_cons_some hrow, List.map_cons, Lexicon.rowsFrom, hscan]
      change _ :: x.rowsFrom (P.carry r.after) _ = _
      rw [ih, ← hk'.after, ← hk'.before]

theorem rows_apply (hx : x.Regular) (d : Document) :
    x.rows (P.apply d) = (x.rows d).filterMap P.row := by
  have := P.rowsFrom_filterMap hx (k := .code) trivial d.lines
  rwa [P.carry_code] at this

theorem literals_filterMap {rs : List Row} (hr : ∀ r ∈ rs, r.Read x) :
    List.Forall₂ x.SameLiteral (rs.flatMap Row.literals)
      ((rs.filterMap P.row).flatMap Row.literals) := by
  induction rs with
  | nil => exact .nil
  | cons r rs ih =>
    have hread := hr r List.mem_cons_self
    have ih := ih fun r h => hr r (List.mem_cons_of_mem _ h)
    rw [List.flatMap_cons]
    cases hrow : P.row r with
    | none =>
      rw [List.filterMap_cons_none hrow, (P.dropped hread hrow).literals]
      exact ih
    | some r' =>
      rw [List.filterMap_cons_some hrow, List.flatMap_cons]
      exact List.rel_append (P.kept hread hrow).literals ih

theorem visibleCode_filterMap {rs : List Row} (hr : ∀ r ∈ rs, r.Read x) :
    visibleCode ((rs.filterMap P.row).flatMap Row.pieces) =
      visibleCode (rs.flatMap Row.pieces) := by
  induction rs with
  | nil => rfl
  | cons r rs ih =>
    have hread := hr r List.mem_cons_self
    have ih := ih fun r h => hr r (List.mem_cons_of_mem _ h)
    rw [List.flatMap_cons, visibleCode_append]
    cases hrow : P.row r with
    | none =>
      rw [List.filterMap_cons_none hrow, (P.dropped hread hrow).code]
      exact ih
    | some r' =>
      rw [List.filterMap_cons_some hrow, List.flatMap_cons, visibleCode_append, ih,
        (P.kept hread hrow).code]

end Pass

end CleanCopy
