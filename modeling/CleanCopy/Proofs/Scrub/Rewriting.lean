import CleanCopy.Proofs.Scrub.Pass

namespace CleanCopy

open Piece

namespace Row

variable {x : Lexicon} {g : Carry → Carry} {r r' : Row} {qs : List Piece} {cls : CommentClass}

/-- The row with another line in a document whose carries are changed by `g`. -/
def rewritten (x : Lexicon) (g : Carry → Carry) (r : Row) (l : Line) : Row :=
  ⟨l, g r.before, (x.scan (g r.before) l.text).pieces, g r.after⟩

/-- Pieces without blanks at their end, unless that end is literal text. -/
def ended (r : Row) (qs : List Piece) : List Piece := if r.after.inLiteral then qs else Piece.trimmed qs

/-- The line that pieces spell, in the place of a row. -/
def spelled (r : Row) (qs : List Piece) : Line := r.line.withText (wording (r.ended qs))

theorem wording_ended (r : Row) (qs : List Piece) :
    wording (r.ended qs) = if r.after.inLiteral then wording qs else (wording qs).trimEnd := by
  rw [ended]
  split
  · rfl
  · exact wording_trimmed qs

theorem rewritten_line (hx : x.Regular) (hr : r.Read x) (hb : g r.before = r.before)
    (ha : g r.after = r.after) : r.rewritten x g r.line = r := by
  rw [rewritten, hb, ha, hr.scan_eq hx.filled]

theorem begins_ended (hx : x.Steady) (hg : (g r.after).inLiteral = r.after.inLiteral)
    (hb : x.Begins (g r.before) qs (g r.after)) :
    x.Begins (g r.before) (r.ended qs) (g r.after) := by
  rw [ended]
  split
  · exact hb
  · rename_i ho
    exact hb.trimmed hx (by rw [hg]; simpa using ho)

theorem pieces_rewritten (hx : x.Steady) (hg : (g r.after).inLiteral = r.after.inLiteral)
    (hb : x.Begins (g r.before) qs (g r.after)) :
    (r.rewritten x g (r.spelled qs)).pieces = merged (r.ended qs) := by
  have := (begins_ended hx hg hb).scan_eq hx.regular.filled
  exact congrArg Scanned.pieces this

theorem Read.rewrites_self (hr : r.Read x) (hb : g r.before = r.before) (ha : g r.after = r.after) :
    r.Rewrites x g r where
  read := hr
  before := hb.symm
  after := ha.symm
  cr := rfl
  whole h := h
  empty _ h := h
  literals := x.sameLiterals_refl _
  code := rfl
  lacks h := h

/-- A row that leaves a literal open keeps the literal that it ends in. -/
theorem Read.exists_open_literal (hx : x.Regular) (hr : r.Read x) (hq : Alters r.pieces qs)
    (ho : r.after.inLiteral = true) : ∃ ps rs t, r.pieces = ps ++ [.literal t] ∧
      r.ended qs = rs ++ [.literal t] ∧ (t = [] → ps = [] ∧ rs = []) := by
  obtain ⟨ps, t, hps, ht⟩ := hr.begins.exists_concat_literal hx ho
  rw [hps] at hq
  obtain ⟨rs, hrs, hnil⟩ := hq.concat_literal
  exact ⟨ps, rs, t, hps, by rw [ended, if_pos ho, hrs], fun h => ⟨ht h, hnil (ht h)⟩⟩

theorem Read.mem_spelled {c : Char} (hr : r.Read x) (hq : Alters r.pieces qs)
    (h : c ∈ (r.spelled qs).text) : c ∈ r.line.text ∨ c = ' ' := by
  change c ∈ wording (r.ended qs) at h
  rw [← hr.spells]
  refine hq.mem_wording ?_
  rw [wording_ended] at h
  split at h
  · exact h
  · exact (Text.trimEnd_isPrefix _).subset h

/-- A carriage return ends a respelled row only inside a literal, where it ended the row before. -/
theorem Read.return_of_ended (hx : x.Regular) (hr : r.Read x) (hq : Alters r.pieces qs)
    (h : (wording (r.ended qs)).getLast? = some '\r') : r.line.text.getLast? = some '\r' := by
  cases ho : r.after.inLiteral with
  | true =>
    obtain ⟨ps, rs, t, hps, hrs, hnil⟩ := hr.exists_open_literal hx hq ho
    rw [hrs] at h
    rw [← hr.spells, hps]
    cases ht : t with
    | nil =>
      obtain ⟨rfl, rfl⟩ := hnil ht
      rw [← ht]
      exact h
    | cons c cs =>
      rw [ht, wording_append, List.getLast?_append_of_ne_nil _ (by simp [Piece.text])] at h
      rw [wording_append, List.getLast?_append_of_ne_nil _ (by simp [Piece.text])]
      exact h
  | false =>
    rw [wording_ended, ho, if_neg Bool.false_ne_true] at h
    cases Text.getLast?_trimEnd h

theorem Read.whole_spelled (hx : x.Regular) (hr : r.Read x) (hq : Alters r.pieces qs)
    (h : r.line.Whole) : (r.spelled qs).Whole where
  no_feed hm := h.no_feed ((hr.mem_spelled hq hm).resolve_right (by decide))
  no_return hc hlast := h.no_return hc (hr.return_of_ended hx hq hlast)

/-- A row may be respelled with fewer comments and gaps, as long as its pieces can be read. -/
theorem Read.rewrites (hx : x.Steady) (hr : r.Read x) (hg : ∀ k, (g k).inLiteral = k.inLiteral)
    (hq : Alters r.pieces qs) (hb : x.Begins (g r.before) qs (g r.after)) :
    r.Rewrites x g (r.rewritten x g (r.spelled qs)) := by
  have hended := begins_ended hx (hg _) hb
  have hpieces := pieces_rewritten hx (hg _) hb
  constructor
  case read =>
    obtain ⟨hbegins, hspells, hjoined⟩ :=
      Lexicon.begins_scan hx.regular.filled hended.fits_before (wording (r.ended qs))
    refine ⟨?_, hspells, hjoined⟩
    rw [hended.scan_eq hx.regular.filled] at hbegins
    rw [hpieces]
    exact hbegins
  case before => rfl
  case after => rfl
  case cr => rfl
  case whole => exact hr.whole_spelled hx.regular hq
  case empty =>
    intro hin htext
    change wording (r.ended qs) = [] at htext
    have hcarry := hended.after_of_isBlank hx.regular (by rw [htext]; rfl)
    have ho : r.after.inLiteral = true := by rw [← hg, hcarry, hg, hin]
    obtain ⟨ps, rs, t, hps, hrs, hnil⟩ := hr.exists_open_literal hx.regular hq ho
    rw [hrs, wording_append, List.append_eq_nil_iff] at htext
    have ht : t = [] := by simpa [Piece.text] using htext.2
    rw [← hr.spells, hps, (hnil ht).1, ht]
    rfl
  case literals =>
    have hafter : (r.rewritten x g (r.spelled qs)).after.inLiteral = r.after.inLiteral := hg _
    rw [literals, literals, hafter, hpieces, literals_merged, ended, ← hq.literals_eq]
    cases ho : r.after.inLiteral with
    | true => exact x.sameLiterals_refl _
    | false =>
      exact Lexicon.sameLiterals_of_sameTexts
        (hb.literals_trimmed hx.regular (by rw [hg, ho]))
  case code =>
    rw [hpieces, visibleCode_merged, ← hq.visibleCode_eq, ended]
    split
    · rfl
    · exact visibleCode_trimmed qs
  case lacks =>
    intro cls h
    rw [hpieces, ended]
    split
    · exact (hq.lacks h).merged
    · exact (hq.lacks h).trimmed.merged

end Row

end CleanCopy
