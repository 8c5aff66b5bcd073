import CleanCopy.Lex.Scan
import CleanCopy.Proofs.Lex.Closer
import CleanCopy.Proofs.Lex.Lexeme

namespace CleanCopy

/-- How a comment or a literal begins on a line. The head is what is read before its closer is
searched for; what another line left open has none. -/
inductive Opening where
  | line (cls : CommentClass)
  | block (cls : CommentClass) (head : Text)
  | literal (d : Delimiter) (head : Text)
  deriving DecidableEq, Repr

namespace Opening

def head : Opening → Text
  | line _ => []
  | block _ head | literal _ head => head

def piece : Opening → Text → Piece
  | line cls, t | block cls _, t => .comment cls t
  | literal _ _, t => .literal t

/-- What is left open when it is not closed on its line. -/
def carry : Opening → Carry
  | line _ => .code
  | block cls _ => .block cls
  | literal d _ => if d.multiline then .literal d else .code

/-- What closes it, and what escapes that. -/
def closing (x : Lexicon) : Opening → Option (Escape × Text)
  | line _ => none
  | block _ _ => some (.never, x.blockCloser)
  | literal d _ => some (d.escape, d.closer)

/-- In `t`, between `before` and `rest`, it ends with the first closer that nothing escapes. -/
def Closed (x : Lexicon) (o : Opening) (before t rest : Text) : Prop :=
  ∃ e closer body, o.closing x = some (e, closer) ∧ t = o.head ++ body ++ closer ∧
    e.Quiet closer (before ++ o.head) (closer ++ rest) body ∧
      e.Ends closer (before ++ o.head ++ body) rest

/-- In `t`, behind `before`, nothing closes it up to the end of the line. -/
def Unclosed (x : Lexicon) (o : Opening) (before t : Text) : Prop :=
  ∃ body, t = o.head ++ body ∧
    ∀ e closer, o.closing x = some (e, closer) → e.Quiet closer (before ++ o.head) [] body

/-- What closes it can be searched for. -/
def Searchable (x : Lexicon) (o : Opening) : Prop :=
  ∀ e closer, o.closing x = some (e, closer) → closer.IsDelimiter

/-- The search for what closes it. -/
def read (x : Lexicon) (o : Opening) (odd : Bool) (body : Text) : Lexeme :=
  match o.closing x with
  | none => .unclosed (o.piece (o.head ++ body)) o.carry
  | some (e, closer) =>
    match e.closing? closer 0 (Escape.oddAfter odd o.head) body with
    | some (inner, rest) => .closed (o.piece (o.head ++ inner ++ closer)) rest
    | none => .unclosed (o.piece (o.head ++ body)) o.carry

variable {x : Lexicon} {o : Opening} {before body t rest : Text} {p : Piece} {k : Carry}

@[simp] theorem text_piece (o : Opening) (t : Text) : (o.piece t).text = t := by
  cases o <;> rfl

@[simp] theorem isCode_piece (o : Opening) (t : Text) : (o.piece t).isCode = false := by
  cases o <;> rfl

theorem Closed.ne_nil (ho : o.Searchable x) (h : o.Closed x before t rest) : t ≠ [] := by
  obtain ⟨e, closer, body, hcl, rfl, -⟩ := h
  simp [(ho e closer hcl).1]

theorem read_of_closed (ho : o.Searchable x) (ht : o.head ++ body = t ++ rest)
    (h : o.Closed x before t rest) :
    o.read x (Escape.oddAfter false before) body = .closed (o.piece t) rest := by
  obtain ⟨e, closer, inner, hcl, rfl, hquiet, hends⟩ := h
  obtain rfl : body = inner ++ closer ++ rest :=
    List.append_cancel_left (ht.trans (by simp only [List.append_assoc]))
  have hfound := Escape.closing?_eq_some_of_quiet (ho e closer hcl) hquiet hends
  simp only [Opening.read, hcl, ← Escape.oddAfter_append, hfound]

theorem read_of_unclosed (ho : o.Searchable x) (h : o.Unclosed x before (o.head ++ body)) :
    o.read x (Escape.oddAfter false before) body = .unclosed (o.piece (o.head ++ body)) o.carry := by
  obtain ⟨body', ht, hquiet⟩ := h
  obtain rfl := List.append_cancel_left ht
  cases hcl : o.closing x with
  | none => simp only [Opening.read, hcl]
  | some q =>
    have hnone := Escape.closing?_eq_none_of_quiet (ho q.1 q.2 hcl) (hquiet q.1 q.2 hcl)
    simp only [Opening.read, hcl, ← Escape.oddAfter_append, hnone]

theorem unclosed_or_closed (ho : o.Searchable x) (before body : Text) :
    o.Unclosed x before (o.head ++ body) ∨
      ∃ t rest, o.head ++ body = t ++ rest ∧ o.Closed x before t rest := by
  cases hcl : o.closing x with
  | none => exact .inl ⟨body, rfl, fun e closer h => by rw [hcl] at h; cases h⟩
  | some q =>
    rcases Escape.quiet_or_ends q.1 (ho q.1 q.2 hcl).1 (before ++ o.head) body with
      h | ⟨inner, rest, rfl, hquiet, hends⟩
    · refine .inl ⟨body, rfl, fun e closer hq => ?_⟩
      obtain rfl := Option.some.inj (hcl.symm.trans hq)
      exact h
    · exact .inr ⟨o.head ++ inner ++ q.2, rest, by simp only [List.append_assoc],
        q.1, q.2, inner, hcl, rfl, hquiet, hends⟩

theorem read_eq_closed_iff (ho : o.Searchable x) :
    o.read x (Escape.oddAfter false before) body = .closed p rest ↔
      p = o.piece p.text ∧ o.head ++ body = p.text ++ rest ∧ o.Closed x before p.text rest := by
  refine ⟨fun h => ?_, fun ⟨hp, ht, h⟩ => hp ▸ read_of_closed ho ht h⟩
  rcases unclosed_or_closed ho before body with hopen | ⟨t, r, ht, hclosed⟩
  · rw [read_of_unclosed ho hopen] at h
    cases h
  · rw [read_of_closed ho ht hclosed] at h
    obtain ⟨rfl, rfl⟩ := Lexeme.closed.inj h
    simp only [Opening.text_piece]
    exact ⟨trivial, ht, hclosed⟩

theorem read_eq_unclosed_iff (ho : o.Searchable x) :
    o.read x (Escape.oddAfter false before) body = .unclosed p k ↔
      p = o.piece (o.head ++ body) ∧ k = o.carry ∧ o.Unclosed x before (o.head ++ body) := by
  refine ⟨fun h => ?_, fun ⟨hp, hk, h⟩ => hp ▸ hk ▸ read_of_unclosed ho h⟩
  rcases unclosed_or_closed ho before body with hopen | ⟨t, r, ht, hclosed⟩
  · rw [read_of_unclosed ho hopen] at h
    obtain ⟨rfl, rfl⟩ := Lexeme.unclosed.inj h
    exact ⟨rfl, rfl, hopen⟩
  · rw [read_of_closed ho ht hclosed] at h
    cases h

theorem not_unclosed_of_closed (ho : o.Searchable x) (h : o.Closed x before t rest) :
    ¬ o.Unclosed x before (t ++ rest) := by
  intro hopen
  obtain ⟨body, ht, -⟩ := id hopen
  have hclosed := read_of_closed ho ht.symm h
  rw [read_of_unclosed ho (ht ▸ hopen)] at hclosed
  cases hclosed

theorem closed_unique {t' rest' : Text} (ho : o.Searchable x) (h : o.Closed x before t rest)
    (h' : o.Closed x before t' rest') (ht : t ++ rest = t' ++ rest') : t = t' ∧ rest = rest' := by
  obtain ⟨body, hbody⟩ : ∃ body, o.head ++ body = t ++ rest := by
    obtain ⟨e, closer, inner, -, rfl, -⟩ := h
    exact ⟨inner ++ closer ++ rest, by simp only [List.append_assoc]⟩
  have hread := (read_of_closed ho hbody h).symm.trans (read_of_closed ho (hbody.trans ht) h')
  obtain ⟨hpiece, hrest⟩ := Lexeme.closed.inj hread
  exact ⟨by simpa using congrArg Piece.text hpiece, hrest⟩

end Opening

end CleanCopy
