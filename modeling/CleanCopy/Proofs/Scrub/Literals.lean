import CleanCopy.Proofs.Lex.Opening
import CleanCopy.Proofs.Scrub.Stripping

namespace CleanCopy

open Piece

namespace Text

/-- Texts that stand in another one, in their order and apart from each other. -/
inductive Holds : Text → List Text → Prop
  | nil (t : Text) : Holds t []
  | cons (before s : Text) {t : Text} {ss : List Text} (h : Holds t ss) :
      Holds (before ++ (s ++ t)) (s :: ss)

variable {t : Text} {ss us : List Text}

theorem Holds.append_left (a : Text) (h : t.Holds ss) : Holds (a ++ t) ss := by
  cases h with
  | nil => exact .nil _
  | cons before s h =>
    rw [← List.append_assoc]
    exact .cons (a ++ before) s h

theorem Holds.append_right (h : t.Holds ss) (b : Text) : Holds (t ++ b) ss := by
  induction h with
  | nil => exact .nil _
  | cons before s h ih =>
    rw [List.append_assoc, List.append_assoc]
    exact .cons before s ih

theorem Holds.of_isPrefix (h : t.Holds ss) (hs : us <+: ss) : t.Holds us := by
  induction h generalizing us with
  | nil =>
    rw [List.prefix_nil.mp hs]
    exact .nil _
  | cons before s h ih =>
    cases us with
    | nil => exact .nil _
    | cons u us =>
      obtain ⟨rfl, hus⟩ := List.cons_prefix_cons.mp hs
      exact .cons before u (ih hus)

end Text

/-- The text of a line that leaves `k` open, without the blanks at its end unless they are literal. -/
def Carry.ending (k : Carry) (t : Text) : Text := if k.inLiteral then t else t.trimEnd

namespace Carry

theorem exists_ending_append (k : Carry) (s t : Text) :
    ∃ b, k.ending (s ++ t) = b ++ k.ending t := by
  rw [ending, ending]
  split
  · exact ⟨s, rfl⟩
  · cases ht : t.isBlank with
    | true =>
      rw [Text.trimEnd_append_of_blank s ht, Text.trimEnd_eq_nil_iff.mpr ht]
      exact ⟨s.trimEnd, (List.append_nil _).symm⟩
    | false => exact ⟨s, Text.trimEnd_append_of_not_blank s ht⟩

theorem exists_append_ending (k : Carry) (t : Text) : ∃ b, k.ending t ++ b = t := by
  rw [ending]
  split
  · exact ⟨[], List.append_nil t⟩
  · exact (Text.exists_trimEnd_append t).imp fun _ h => h.2

theorem ending_append {s : Text} (hs : s.trimEnd = s) (k : Carry) (t : Text) :
    k.ending (s ++ t) = s ++ k.ending t := by
  rw [ending, ending]
  split
  · rfl
  · cases ht : t.isBlank with
    | true =>
      rw [Text.trimEnd_append_of_blank s ht, Text.trimEnd_eq_nil_iff.mpr ht, hs, List.append_nil]
    | false => exact Text.trimEnd_append_of_not_blank s ht

end Carry

namespace Lexicon

instance (x : Lexicon) (t : Text) : Decidable (x.LeftOpen t) := inferInstanceAs (Decidable (_ = _))

/-- The literals among pieces of which the first begins in code, but for a last one that should end
with its line and does not. -/
def settled (x : Lexicon) (ps : List Piece) : List Text :=
  match ps.getLast? with
  | some (.literal t) => if x.LeftOpen t then Piece.literals ps.dropLast else Piece.literals ps
  | _ => Piece.literals ps

variable {x : Lexicon} {odd : Bool} {p : Piece} {ps : List Piece} {k k' : Carry} {t rest : Text}
  {cls : CommentClass}

theorem not_startsWith_nil {s : Text} (hs : s ≠ []) : Text.startsWith [] s = false := by
  rw [Bool.eq_false_iff, Ne, Text.startsWith_iff, List.prefix_nil]
  exact hs

/-- The literal that a text begins with is the same in what is left of the text behind its opener. -/
theorem literal_unique {d d' : Delimiter} (h : x.token? (t ++ rest) = some (.literal d))
    (h' : x.token? t = some (.literal d')) (hd : d.opener <+: t) : d' = d := by
  obtain ⟨-, -, h⟩ := token?_eq_literal_iff.mp h
  obtain ⟨-, -, h'⟩ := token?_eq_literal_iff.mp h'
  rw [List.find?_eq_some_iff_append] at h
  obtain ⟨-, ds, es, hds, hother⟩ := h
  have hfind : x.literals.find? (t.startsWith ·.opener) = some d := by
    refine List.find?_eq_some_iff_append.mpr ⟨Text.startsWith_iff.mpr hd, ds, es, hds, ?_⟩
    intro e he
    have hnot := hother e he
    rw [Bool.not_eq_true', Bool.eq_false_iff, Ne, Text.startsWith_iff] at hnot ⊢
    exact fun hp => hnot (hp.trans (List.prefix_append t rest))
  exact Option.some.inj (h'.symm.trans hfind)

/-- A literal that is closed in its line is not left open, so that it is settled wherever it stands. -/
theorem not_leftOpen_of_closed (hx : x.Filled)
    (h : x.lexeme? odd (t ++ rest) = some (.closed (.literal t) rest)) : ¬ x.LeftOpen t := by
  intro hopen
  obtain ⟨rfl, ⟨c, -, hl⟩ | ⟨c, opener, body, -, -, -, hl⟩ | ⟨d, hd, body, htok, htext, hl⟩⟩ :=
    lexeme?_eq_some h
  · cases hl
  · obtain ⟨inner, hp, -⟩ := blockRest_eq_closed hl.symm
    cases hp
  · have hclo := hx _ (closer_mem hd)
    obtain ⟨inner, hp, hc⟩ := literalRest_eq_closed hl.symm
    obtain rfl := Piece.literal.inj hp
    obtain ⟨-, ⟨c, -, hp, -⟩ | ⟨c, opener, body, -, -, -, -, hp, -⟩ |
      ⟨d', -, body', htok', htext', hnone, -⟩⟩ := lexeme?_eq_unclosed hopen
    · cases hp
    · cases hp
    · rw [List.append_assoc] at htext'
      obtain rfl := literal_unique htok htok' (List.append_assoc .. ▸ List.prefix_append ..)
      rw [← List.append_cancel_left htext', ← List.append_nil (inner ++ _),
        Escape.closing?_congr hclo hc fun _ => not_startsWith_nil hclo] at hnone
      cases hnone

theorem settled_isPrefix (ps : List Piece) : x.settled ps <+: Piece.literals ps := by
  rw [settled]
  split
  · split
    · rename_i t hlast _
      obtain ⟨qs, rfl⟩ := List.getLast?_eq_some_iff.mp hlast
      rw [List.dropLast_concat, literals_append]
      exact List.prefix_append ..
    · exact List.prefix_rfl
  · exact List.prefix_rfl

theorem settled_cons_isPrefix (p : Piece) (ps : List Piece) :
    x.settled (p :: ps) <+: Piece.literals [p] ++ x.settled ps := by
  cases ps with
  | nil => exact (settled_isPrefix [p]).trans (List.prefix_append ..)
  | cons q qs =>
    have hlast : (p :: q :: qs).getLast? = (q :: qs).getLast? := List.getLast?_cons_cons
    rw [settled, settled, hlast, List.dropLast_cons_cons, literals_cons p, literals_cons p (q :: qs)]
    split
    · split <;> exact List.prefix_rfl
    · exact List.prefix_rfl

theorem holds_ending_cons {ss : List Text} (p : Piece)
    (h : (k.ending (wording (without cls ps))).Holds ss) :
    (k.ending (wording (without cls (p :: ps)))).Holds ss := by
  obtain ⟨b, hb⟩ := k.exists_ending_append (wording (without cls [p])) (wording (without cls ps))
  rw [without_cons, wording_append, hb]
  exact h.append_left b

/-- A closed comment or literal ends in a closer, which no trimming reaches. -/
theorem Sealed.holds_ending (hx : x.Unbroken) (hp : x.Sealed p) {ss : List Text}
    (h : (k.ending (wording (without cls ps))).Holds ss) :
    (k.ending (wording (without cls (p :: ps)))).Holds (Piece.literals [p] ++ ss) := by
  cases hp with
  | comment c head => exact holds_ending_cons _ h
  | literal d hd head =>
    have htrim := (Sealed.literal d hd head).trimEnd_text hx
    rw [without_cons_of_not_comment rfl, wording_cons, Carry.ending_append htrim]
    exact .cons [] _ h

/-- A literal that goes on in the next line stands at the end of its own, which is not trimmed. -/
theorem holds_ending_literal (d : Delimiter) (t : Text) :
    ((Carry.literal d).ending (wording (without cls [.literal t]))).Holds [t] :=
  .cons [] t (.nil [])

theorem Reads.holds_settled (hx : x.Unbroken) (h : x.Reads odd ps k) (cls : CommentClass) :
    (k.ending (wording (without cls ps))).Holds (x.settled ps) := by
  induction h with
  | done => exact .nil _
  | code free later ih => exact (holds_ending_cons _ ih).of_isPrefix (settled_cons_isPrefix ..)
  | closed first later ih =>
    exact ((sealed_of_lexeme? first).holds_ending hx ih).of_isPrefix (settled_cons_isPrefix ..)
  | @unclosed odd p k last =>
    obtain ⟨rfl, ⟨c, -, hp, -⟩ | ⟨c, opener, body, -, -, -, -, hp, -⟩ |
      ⟨d, -, body, -, -, -, hp, hk⟩⟩ := lexeme?_eq_unclosed last
    · rw [hp]
      exact .nil _
    · rw [hp]
      exact .nil _
    · cases hm : d.multiline with
      | true =>
        rw [hm, if_pos rfl] at hk
        rw [hp, hk]
        exact (holds_ending_literal ..).of_isPrefix (settled_isPrefix _)
      | false =>
        rw [hm, if_neg Bool.false_ne_true] at hk
        rw [hp, hk] at last
        have hnone : x.settled [.literal p.text] = [] := if_pos last
        rw [hp, hnone]
        exact .nil _

theorem Sealed.of_isBlank_without (hx : x.Unbroken) (hp : x.Sealed p)
    (hb : (wording (without cls (p :: ps))).isBlank = true) :
    Piece.literals [p] = [] ∧ (wording (without cls ps)).isBlank = true := by
  rw [without_cons, wording_append, Text.isBlank_append, Bool.and_eq_true] at hb
  refine ⟨?_, hb.2⟩
  have hvisible := hp.isBlank_text hx
  cases hp with
  | comment c head => rfl
  | literal d hd head =>
    have hfirst := hb.1
    rw [without_cons_of_not_comment rfl, wording_cons, Text.isBlank_append, hvisible] at hfirst
    cases hfirst

/-- Where nothing but blanks is left of a line, no literal was in it. -/
theorem Reads.literals_of_isBlank_without (hx : x.Unbroken) (h : x.Reads odd ps k)
    (hb : (wording (without cls ps)).isBlank = true) : Piece.literals ps = [] := by
  induction h with
  | done => rfl
  | code free later ih =>
    rw [without_cons, wording_append, Text.isBlank_append, Bool.and_eq_true] at hb
    exact ih hb.2
  | closed first later ih =>
    obtain ⟨hp, hb⟩ := (sealed_of_lexeme? first).of_isBlank_without hx hb
    rw [literals_cons, hp, ih hb]
    rfl
  | @unclosed odd p k last =>
    obtain ⟨-, ⟨c, -, hp, -⟩ | ⟨c, opener, body, -, -, -, -, hp, -⟩ |
      ⟨d, -, body, -, -, -, hp, hk⟩⟩ := lexeme?_eq_unclosed last
    · rw [hp]
      rfl
    · rw [hp]
      rfl
    · rw [hp, without_cons_of_not_comment rfl, wording_cons, Text.isBlank_append, text,
        isBlank_of_unclosed hx last] at hb
      cases hb

theorem Begins.literals_of_isBlank_without (hx : x.Unbroken) (h : x.Begins k ps k')
    (hk : k'.inLiteral = false) (hb : (wording (without cls ps)).isBlank = true) :
    Piece.literals ps = [] := by
  cases h with
  | code h => exact h.literals_of_isBlank_without hx hb
  | closed fits first later =>
    obtain ⟨hp, hb⟩ := (sealed_of_resume? fits first).of_isBlank_without hx hb
    rw [literals_cons, hp, later.literals_of_isBlank_without hx hb]
    rfl
  | @unclosed _ p fits last =>
    obtain ⟨-, ⟨c, -, hp⟩ | ⟨d, rfl, -⟩⟩ := resume?_eq_unclosed last
    · rw [hp]
      rfl
    · cases hk

end Lexicon

namespace Row

/-- The literals of a row, but for a last one that begins in it, should end with it and does not. -/
def settled (x : Lexicon) (r : Row) : List Text :=
  if r.before.inLiteral then Piece.literals (r.pieces.take 1) ++ x.settled (r.pieces.drop 1)
  else x.settled r.pieces

variable {x : Lexicon} {r : Row} {cls : CommentClass} {l : Line}

theorem Read.holds_settled (hx : x.Unbroken) (hr : r.Read x) (cls : CommentClass) :
    (r.after.ending (wording (without cls r.pieces))).Holds (r.settled x) := by
  obtain ⟨l, k, ps, k'⟩ := r
  have hb : x.Begins k ps k' := hr.begins
  rw [settled]
  cases hb with
  | code h => exact h.holds_settled hx cls
  | closed fits first later =>
    have hholds := (Lexicon.sealed_of_resume? fits first).holds_ending hx
      (later.holds_settled hx cls)
    split
    · exact hholds
    · exact hholds.of_isPrefix (Lexicon.settled_cons_isPrefix ..)
  | @unclosed _ p fits last =>
    obtain ⟨-, ⟨c, rfl, hp⟩ | ⟨d, rfl, hp⟩⟩ := Lexicon.resume?_eq_unclosed last
    · rw [hp]
      exact .nil _
    · rw [hp]
      exact Lexicon.holds_ending_literal d p.text

theorem Read.holds_line (hx : x.Unbroken) (hr : r.Read x) (h : Lacks cls r.pieces) :
    r.line.text.Holds (r.settled x) := by
  have hholds := hr.holds_settled hx cls
  rw [without_of_lacks h, hr.spells] at hholds
  obtain ⟨b, hb⟩ := r.after.exists_append_ending r.line.text
  rw [← hb]
  exact hholds.append_right b

end Row

/-- The removal of comments does not touch literals: what is left of a row holds all of them, unless
one should have ended with it and did not, and a row goes only if it held none. -/
theorem Document.stripComments_keeps_literals {x : Lexicon} (hx : x.Unbroken) (d : Document)
    (cls : CommentClass) :
    (d.stripComments x cls).lines = (x.rows d).filterMap (·.withoutComments cls) ∧
      ∀ r ∈ x.rows d,
        (r.withoutComments cls = none → Piece.literals r.pieces = []) ∧
        (Lacks cls r.pieces → r.withoutComments cls = some r.line) ∧
        ∀ l, r.withoutComments cls = some l →
          l.cr = r.line.cr ∧ l.text.Holds (r.settled x) := by
  refine ⟨rfl, fun r hr => ?_⟩
  have hread := x.rows_read hx.filled d r hr
  by_cases hl : Lacks cls r.pieces
  · rw [Row.withoutComments_of_lacks hl]
    refine ⟨nofun, fun _ => rfl, fun l h => ?_⟩
    obtain rfl := Option.some.inj h
    exact ⟨rfl, hread.holds_line hx hl⟩
  · rw [Row.withoutComments_eq_left hl]
    refine ⟨fun h => ?_, fun h => absurd h hl, fun l h => ?_⟩
    · obtain ⟨ho, hb⟩ := Row.left_eq_none_iff.mp h
      exact hread.begins.literals_of_isBlank_without hx ho hb
    · obtain rfl := Row.eq_of_left h
      exact ⟨rfl, hread.holds_settled hx cls⟩

/-- Quotes outside ASCII, a literal that begins behind a comment and ends before one, and one that
is left open. -/
theorem Document.stripComments_keeps_literals_angled :
    let x : Lexicon := ⟨some ['#'], none, some (['⟦'], ['⟧']), none,
      [.spanning ['«'] ['»'] .never, .quote ['‹']]⟩
    let d := Document.parse "⟦a⟧ «b  \n c» # d\n # e\n‹f  ⟦".toList
    (d.stripComments x .plain).lines = (x.rows d).filterMap (·.withoutComments .plain) ∧
      ∀ r ∈ x.rows d,
        (r.withoutComments .plain = none → Piece.literals r.pieces = []) ∧
        (Lacks .plain r.pieces → r.withoutComments .plain = some r.line) ∧
        ∀ l, r.withoutComments .plain = some l →
          l.cr = r.line.cr ∧ l.text.Holds (r.settled x) :=
  stripComments_keeps_literals (by decide) _ .plain

end CleanCopy
