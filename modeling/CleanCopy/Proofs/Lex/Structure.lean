import CleanCopy.Proofs.Lex.Lifting

namespace CleanCopy

namespace Piece

/-- The texts of the literals. -/
def literals : List Piece → List Text
  | [] => []
  | literal t :: ps => t :: literals ps
  | _ :: ps => literals ps

/-- The characters of the code that are not whitespace. -/
def visibleCode : List Piece → Text
  | [] => []
  | code t :: ps => t.visible ++ visibleCode ps
  | _ :: ps => visibleCode ps

/-- No piece is a comment of the class. -/
def Lacks (cls : CommentClass) (ps : List Piece) : Prop := ∀ p ∈ ps, p.isComment cls = false

instance (cls : CommentClass) (ps : List Piece) : Decidable (Lacks cls ps) :=
  inferInstanceAs (Decidable (∀ _ ∈ _, _))

/-- Pieces that are rewritten: comments may go and code may change its whitespace. -/
inductive Alters : List Piece → List Piece → Prop
  | nil : Alters [] []
  | same (p : Piece) {ps qs : List Piece} (h : Alters ps qs) : Alters (p :: ps) (p :: qs)
  | removed (cls : CommentClass) (t : Text) {ps qs : List Piece} (h : Alters ps qs) :
      Alters (comment cls t :: ps) qs
  | respaced {t u : Text} {ps qs : List Piece} (visible : u.visible = t.visible)
      (mem : ∀ c ∈ u, c ∈ t ∨ c = ' ') (h : Alters ps qs) : Alters (code t :: ps) (code u :: qs)

variable {p : Piece} {ps qs : List Piece} {cls : CommentClass} {t : Text}

@[simp] theorem literals_append (ps qs : List Piece) :
    literals (ps ++ qs) = literals ps ++ literals qs := by
  induction ps with
  | nil => rfl
  | cons p ps ih => cases p <;> simp [literals, ih]

@[simp] theorem visibleCode_append (ps qs : List Piece) :
    visibleCode (ps ++ qs) = visibleCode ps ++ visibleCode qs := by
  induction ps with
  | nil => rfl
  | cons p ps ih => cases p <;> simp [visibleCode, ih]

theorem literals_cons (p : Piece) (ps : List Piece) :
    literals (p :: ps) = literals [p] ++ literals ps := literals_append [p] ps

theorem visibleCode_cons (p : Piece) (ps : List Piece) :
    visibleCode (p :: ps) = visibleCode [p] ++ visibleCode ps := visibleCode_append [p] ps

theorem literals_of_isCode (h : ∀ p ∈ ps, p.isCode = true) : literals ps = [] := by
  induction ps with
  | nil => rfl
  | cons p ps ih =>
    obtain ⟨hp, hps⟩ := List.forall_mem_cons.mp h
    cases p with
    | code t => exact ih hps
    | literal t => cases hp
    | comment cls t => cases hp

theorem literals_merge (p : Piece) (ps : List Piece) :
    literals (merge p ps) = literals (p :: ps) := by
  match p, ps with
  | code [], ps => rfl
  | code (c :: t), [] => rfl
  | code (c :: t), q :: qs => cases q <;> rfl
  | literal t, ps => rfl
  | comment cls t, ps => rfl

theorem visibleCode_merge (p : Piece) (ps : List Piece) :
    visibleCode (merge p ps) = visibleCode (p :: ps) := by
  match p, ps with
  | code [], ps => rfl
  | code (c :: t), [] => rfl
  | code (c :: t), q :: qs =>
    cases q with
    | code u =>
      change Text.visible (c :: t ++ u) ++ visibleCode qs = _
      rw [Text.visible_append, List.append_assoc]
      rfl
    | literal u => rfl
    | comment cls u => rfl
  | literal t, ps => rfl
  | comment cls t, ps => rfl

theorem literals_merged (ps : List Piece) : literals (merged ps) = literals ps := by
  induction ps with
  | nil => rfl
  | cons p ps ih => rw [merged_cons, literals_merge, literals_cons, ih, ← literals_cons]

theorem visibleCode_merged (ps : List Piece) : visibleCode (merged ps) = visibleCode ps := by
  induction ps with
  | nil => rfl
  | cons p ps ih => rw [merged_cons, visibleCode_merge, visibleCode_cons, ih, ← visibleCode_cons]

theorem lacks_cons : Lacks cls (p :: ps) ↔ p.isComment cls = false ∧ Lacks cls ps :=
  List.forall_mem_cons

theorem lacks_iff_any : Lacks cls ps ↔ ps.any (·.isComment cls) = false := by
  simp [Lacks, List.any_eq_false]

theorem any_isComment_merge (cls : CommentClass) (p : Piece) (ps : List Piece) :
    (merge p ps).any (·.isComment cls) = (p :: ps).any (·.isComment cls) := by
  match p, ps with
  | code [], ps => rfl
  | code (c :: t), [] => rfl
  | code (c :: t), code u :: qs => rfl
  | code (c :: t), literal u :: qs => rfl
  | code (c :: t), comment d u :: qs => rfl
  | literal t, ps => rfl
  | comment d t, ps => rfl

theorem any_isComment_merged (cls : CommentClass) (ps : List Piece) :
    (merged ps).any (·.isComment cls) = ps.any (·.isComment cls) := by
  induction ps with
  | nil => rfl
  | cons p ps ih => rw [merged_cons, any_isComment_merge, List.any_cons, ih, ← List.any_cons]

theorem Lacks.merged (h : Lacks cls ps) : Lacks cls (merged ps) := by
  rw [lacks_iff_any] at h ⊢
  rw [any_isComment_merged, h]

theorem visibleCode_of_isBlank (h : (wording ps).isBlank = true) : visibleCode ps = [] := by
  induction ps with
  | nil => rfl
  | cons p ps ih =>
    rw [wording_cons, Text.isBlank_append, Bool.and_eq_true] at h
    cases p with
    | code t =>
      have ht : t.visible = [] := Text.visible_eq_nil_iff.mpr h.1
      rw [visibleCode, ht, ih h.2]
      rfl
    | literal t => exact ih h.2
    | comment cls t => exact ih h.2

theorem visibleCode_trimmed (ps : List Piece) : visibleCode (trimmed ps) = visibleCode ps := by
  induction ps with
  | nil => rfl
  | cons p ps ih =>
    rw [trimmed]
    split
    · rename_i hb
      rw [visibleCode_cons p ps, visibleCode_of_isBlank hb, List.append_nil]
      cases p with
      | code t =>
        split
        · rename_i ht
          exact (visibleCode_of_isBlank (by simpa [isCode, text] using ht)).symm
        · simp [visibleCode, withText, text]
      | literal t => rfl
      | comment cls t => rfl
    · rw [visibleCode_cons, ih, ← visibleCode_cons]

theorem Lacks.trimmed (h : Lacks cls ps) : Lacks cls (trimmed ps) := by
  induction ps with
  | nil => exact h
  | cons p ps ih =>
    obtain ⟨hp, hps⟩ := lacks_cons.mp h
    rw [Piece.trimmed]
    split
    · split
      · exact fun _ h => absurd h List.not_mem_nil
      · refine lacks_cons.mpr ⟨?_, fun _ h => absurd h List.not_mem_nil⟩
        cases p <;> exact hp
    · exact lacks_cons.mpr ⟨hp, ih hps⟩

theorem Alters.refl (ps : List Piece) : Alters ps ps := by
  induction ps with
  | nil => exact .nil
  | cons p ps ih => exact .same p ih

theorem Alters.literals_eq (h : Alters ps qs) : literals qs = literals ps := by
  induction h with
  | nil => rfl
  | same p h ih => rw [literals_cons, ih, ← literals_cons]
  | removed cls t h ih => exact ih
  | respaced _ _ h ih => exact ih

theorem Alters.visibleCode_eq (h : Alters ps qs) : visibleCode qs = visibleCode ps := by
  induction h with
  | nil => rfl
  | same p h ih => rw [visibleCode_cons, ih, ← visibleCode_cons]
  | removed cls t h ih => exact ih
  | respaced hv _ h ih => rw [visibleCode, visibleCode, hv, ih]

theorem Alters.lacks (h : Alters ps qs) (hp : Lacks cls ps) : Lacks cls qs := by
  induction h with
  | nil => exact hp
  | same p h ih => exact lacks_cons.mpr ⟨(lacks_cons.mp hp).1, ih (lacks_cons.mp hp).2⟩
  | removed c t h ih => exact ih (lacks_cons.mp hp).2
  | respaced _ _ h ih => exact lacks_cons.mpr ⟨rfl, ih (lacks_cons.mp hp).2⟩

/-- No character comes to be written but spaces. -/
theorem Alters.mem_wording {c : Char} (h : Alters ps qs) (hq : c ∈ wording qs) :
    c ∈ wording ps ∨ c = ' ' := by
  induction h with
  | nil => exact .inl hq
  | same p h ih =>
    rw [wording_cons, List.mem_append] at hq ⊢
    exact hq.elim (fun h => .inl (.inl h)) fun h => (ih h).imp .inr id
  | removed cls t h ih => exact (ih hq).imp (List.mem_append_right _) id
  | respaced _ hm h ih =>
    rw [wording_cons, List.mem_append] at hq ⊢
    exact hq.elim (fun h => (hm c h).imp .inl id) fun h => (ih h).imp .inr id

theorem Alters.concat_literal {qs : List Piece} (h : Alters (ps ++ [literal t]) qs) :
    ∃ rs, qs = rs ++ [literal t] ∧ (ps = [] → rs = []) := by
  induction ps generalizing qs with
  | nil =>
    cases h with
    | same _ h =>
      cases h
      exact ⟨[], rfl, fun _ => rfl⟩
  | cons p ps ih =>
    cases h with
    | same _ h =>
      obtain ⟨rs, rfl, -⟩ := ih h
      exact ⟨p :: rs, rfl, fun h => by cases h⟩
    | removed _ _ h =>
      obtain ⟨rs, rfl, -⟩ := ih h
      exact ⟨rs, rfl, fun h => by cases h⟩
    | respaced _ _ h =>
      obtain ⟨rs, rfl, -⟩ := ih h
      exact ⟨_ :: rs, rfl, fun h => by cases h⟩

end Piece

namespace Lexicon

open Piece

/-- A literal that would have to end with its line and does not. -/
def LeftOpen (x : Lexicon) (t : Text) : Prop :=
  x.lexeme? false t = some (.unclosed (.literal t) .code)

/-- Equal texts of literals, but for blanks at the end of one that is left open. -/
def SameText (x : Lexicon) (s t : Text) : Prop := s = t ∨ x.LeftOpen s ∧ t = s.trimEnd

theorem sameTexts_refl (x : Lexicon) (ts : List Text) : List.Forall₂ x.SameText ts ts :=
  List.forall₂_same.mpr fun _ _ => .inl rfl

variable {x : Lexicon} {odd : Bool} {t : Text} {p : Piece} {ps : List Piece} {k k' : Carry}

theorem Reads.literals_of_isBlank (hx : x.Regular) (h : x.Reads odd ps k)
    (hb : (wording ps).isBlank = true) : Piece.literals ps = [] :=
  literals_of_isCode (h.of_isBlank hx hb).1

theorem Sealed.literals_trimmed (hx : x.Regular) (h : x.Sealed p) (later : x.Reads odd ps k)
    (ih : List.Forall₂ x.SameText (Piece.literals ps) (Piece.literals (Piece.trimmed ps))) :
    List.Forall₂ x.SameText (Piece.literals (p :: ps))
      (Piece.literals (Piece.trimmed (p :: ps))) := by
  rw [h.trimmed_cons hx]
  split
  · rename_i hb
    have hnone : Piece.literals ps = [] := later.literals_of_isBlank hx hb
    rw [literals_cons, hnone, List.append_nil]
    exact sameTexts_refl x _
  · rw [literals_cons, literals_cons p (Piece.trimmed ps)]
    exact List.rel_append (sameTexts_refl x _) ih

/-- Trimming reaches a literal only if it is left open. -/
theorem Reads.literals_trimmed (hx : x.Regular) (h : x.Reads odd ps k) (hk : k.inLiteral = false) :
    List.Forall₂ x.SameText (Piece.literals ps) (Piece.literals (Piece.trimmed ps)) := by
  induction h with
  | done => exact .nil
  | @code odd t ps k free later ih =>
    have ih := ih hk
    rw [Piece.trimmed]
    split
    · rename_i hb
      have hnone : Piece.literals ps = [] := later.literals_of_isBlank hx hb
      change List.Forall₂ _ (Piece.literals ps) _
      rw [hnone]
      split <;> exact .nil
    · exact ih
  | @closed odd p ps k first later ih =>
    exact (sealed_of_lexeme? first).literals_trimmed hx later (ih hk)
  | @unclosed odd p k last =>
    rw [Piece.trimmed_singleton (not_code_of_unclosed last)]
    obtain ⟨rfl, ⟨c, -, hp, -⟩ | ⟨c, opener, body, -, -, -, -, hp, -⟩ |
      ⟨d, -, body, -, -, -, hp, rfl⟩⟩ := lexeme?_eq_unclosed last
    · rw [hp]
      exact .nil
    · rw [hp]
      exact .nil
    · have hm : d.multiline = false := by
        cases hm : d.multiline with
        | false => rfl
        | true => rw [hm] at hk; cases hk
      rw [hm, hp] at last
      rw [hp]
      exact .cons (.inr ⟨last, rfl⟩) .nil

theorem Begins.literals_trimmed (hx : x.Regular) (h : x.Begins k ps k')
    (hk : k'.inLiteral = false) :
    List.Forall₂ x.SameText (Piece.literals ps) (Piece.literals (Piece.trimmed ps)) := by
  cases h with
  | code h => exact h.literals_trimmed hx hk
  | @closed _ _ p ps fits first later =>
    exact (sealed_of_resume? fits first).literals_trimmed hx later (later.literals_trimmed hx hk)
  | @unclosed _ p fits last =>
    obtain ⟨-, ⟨cls, -, hp⟩ | ⟨d, rfl, -⟩⟩ := resume?_eq_unclosed last
    · rw [hp]
      exact .nil
    · cases hk

/-- A blank line leaves open what was open before. -/
theorem Begins.after_of_isBlank (hx : x.Regular) (h : x.Begins k ps k')
    (hb : (wording ps).isBlank = true) : k' = k := by
  cases h with
  | code h => exact (h.of_isBlank hx hb).2
  | closed fits first later =>
    cases ((sealed_of_resume? fits first).isBlank_wording hx.unbroken _).symm.trans hb
  | unclosed fits last => rfl

theorem Begins.literals_of_isBlank (hx : x.Regular) (h : x.Begins k ps k')
    (hb : (wording ps).isBlank = true) (hk : k.inLiteral = false) : Piece.literals ps = [] := by
  cases h with
  | code h => exact h.literals_of_isBlank hx hb
  | closed fits first later =>
    cases ((sealed_of_resume? fits first).isBlank_wording hx.unbroken _).symm.trans hb
  | @unclosed _ p fits last =>
    obtain ⟨-, ⟨cls, -, hp⟩ | ⟨d, rfl, -⟩⟩ := resume?_eq_unclosed last
    · rw [hp]
      rfl
    · cases hk

theorem Reads.exists_concat_literal (hx : x.Regular) (h : x.Reads odd ps k)
    (hk : k.inLiteral = true) : ∃ qs t, ps = qs ++ [.literal t] ∧ t ≠ [] := by
  induction h with
  | done => cases hk
  | code _ _ ih =>
    obtain ⟨qs, t, rfl, ht⟩ := ih hk
    exact ⟨_ :: qs, t, rfl, ht⟩
  | closed _ _ ih =>
    obtain ⟨qs, t, rfl, ht⟩ := ih hk
    exact ⟨_ :: qs, t, rfl, ht⟩
  | unclosed last =>
    have hb := isBlank_of_unclosed hx.unbroken last
    obtain ⟨-, ⟨c, -, -, rfl⟩ | ⟨c, opener, body, -, -, -, -, -, rfl⟩ |
      ⟨d, -, body, -, -, -, hp, -⟩⟩ := lexeme?_eq_unclosed last
    · cases hk
    · cases hk
    · refine ⟨[], _, congrArg (fun p => [p]) hp, fun ht => ?_⟩
      rw [ht] at hb
      cases hb

/-- A line that leaves a literal open ends in one, and is all literal if that one is empty. -/
theorem Begins.exists_concat_literal (hx : x.Regular) (h : x.Begins k ps k')
    (hk : k'.inLiteral = true) : ∃ qs t, ps = qs ++ [.literal t] ∧ (t = [] → qs = []) := by
  cases h with
  | code h =>
    obtain ⟨qs, t, hps, ht⟩ := h.exists_concat_literal hx hk
    exact ⟨qs, t, hps, fun h => absurd h ht⟩
  | closed fits first later =>
    obtain ⟨qs, t, rfl, ht⟩ := later.exists_concat_literal hx hk
    exact ⟨_ :: qs, t, rfl, fun h => absurd h ht⟩
  | @unclosed _ p fits last =>
    obtain ⟨-, ⟨cls, rfl, -⟩ | ⟨d, -, hp⟩⟩ := resume?_eq_unclosed last
    · cases hk
    · exact ⟨[], p.text, congrArg (fun p => [p]) hp, fun _ => rfl⟩

end Lexicon

end CleanCopy
