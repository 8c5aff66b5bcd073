import CleanCopy.Proofs.Glob.Class
import Mathlib.Data.List.Forall2

namespace CleanCopy

namespace Pattern

variable {atom : Atom} {p : Pattern} {name t w : Text}

theorem accepts_nil : accepts [] name = true ↔ name = [] := by
  rw [accepts, List.isEmpty_iff]

theorem accepts_single : accepts (⟨atom, false⟩ :: p) name = true ↔
    ∃ c more, name = c :: more ∧ atom.accepts c = true ∧ accepts p more = true := by
  cases name with
  | nil => simp [accepts]
  | cons c cs =>
    rw [accepts, if_neg Bool.false_ne_true, Bool.and_eq_true]
    constructor
    · rintro ⟨hc, hcs⟩
      exact ⟨c, cs, rfl, hc, hcs⟩
    · rintro ⟨d, ds, heq, hd, hds⟩
      obtain ⟨rfl, rfl⟩ := List.cons.inj heq
      exact ⟨hd, hds⟩

theorem accepts_many : accepts (⟨atom, true⟩ :: p) name = true ↔
    ∃ run more, name = run ++ more ∧ (∀ c ∈ run, atom.accepts c = true) ∧
      accepts p more = true := by
  induction name with
  | nil =>
    rw [accepts, Bool.true_and]
    constructor
    · intro h
      exact ⟨[], [], rfl, fun _ hc => absurd hc List.not_mem_nil, h⟩
    · rintro ⟨run, more, heq, -, h⟩
      obtain ⟨rfl, rfl⟩ := List.append_eq_nil_iff.mp heq.symm
      exact h
  | cons c cs ih =>
    rw [accepts, if_pos rfl, Bool.or_eq_true, Bool.and_eq_true, ih]
    constructor
    · rintro (h | ⟨hc, run, more, rfl, hrun, h⟩)
      · exact ⟨[], c :: cs, rfl, fun _ hc => absurd hc List.not_mem_nil, h⟩
      · exact ⟨c :: run, more, rfl, List.forall_mem_cons.mpr ⟨hc, hrun⟩, h⟩
    · rintro ⟨run, more, heq, hrun, h⟩
      cases run with
      | nil =>
        obtain rfl : c :: cs = more := heq
        exact .inl h
      | cons d run =>
        obtain ⟨rfl, rfl⟩ := List.cons.inj heq
        obtain ⟨hd, hrun⟩ := List.forall_mem_cons.mp hrun
        exact .inr ⟨hd, run, more, rfl, hrun, h⟩

theorem readSteps?_end : readSteps? ['$'] = some [] := by
  rw [readSteps?]

/-- A step is an atom, and a star where one follows. -/
theorem readSteps?_of_readAtom? (hread : readAtom? t = some (atom, w))
    (hlen : w.length < t.length) : readSteps? t =
      if w.head? = some '*' then (readSteps? w.tail).map (⟨atom, true⟩ :: ·)
      else (readSteps? w).map (⟨atom, false⟩ :: ·) := by
  have hend : readAtom? ['$'] = none := rfl
  rw [readSteps?.eq_def]
  split
  · rw [hend] at hread
    cases hread
  · rw [hread]
    dsimp only
    split
    · exact if_pos (Nat.lt_of_succ_lt hlen)
    · rename_i hstar
      have hhead : ¬ w.head? = some '*' := by
        intro hhead
        obtain ⟨u, rfl⟩ := List.head?_eq_some_iff.mp hhead
        exact hstar u rfl
      rw [if_pos hlen, if_neg hhead]

theorem readAtom?_escape (c : Char) (w : Text) :
    readAtom? (Glob.escape c ++ w) = some (.char c, w) := by
  rw [Glob.escape]
  split
  · rename_i hmeta
    exact if_pos hmeta
  · rename_i hmeta
    have hne (d : Char) (hd : isMeta d = true) : c ≠ d := by
      rintro rfl
      exact hmeta hd
    rw [List.singleton_append, readAtom?.eq_def]
    split
    · rename_i heq
      exact absurd (List.cons.inj heq).1 (hne '.' (by decide))
    · rename_i heq
      exact absurd (List.cons.inj heq).1 (hne '[' (by decide))
    · rename_i heq
      exact absurd (List.cons.inj heq).1 (hne '\\' (by decide))
    · rename_i heq
      obtain ⟨rfl, rfl⟩ := List.cons.inj heq
      exact if_neg hmeta
    · rename_i heq
      cases heq

end Pattern

namespace Glob

open Pattern

/-- What a glob asks of a name, one after the other. -/
inductive Part where
  | run
  | one
  | set (negated : Bool) (members : Text)
  | char (c : Char)
  deriving DecidableEq, Repr

/-- The texts that a part takes. -/
def Part.Takes : Part → Text → Prop
  | run, _ => True
  | one, t => ∃ c, t = [c]
  | set negated members, t => ∃ c, t = [c] ∧ (Lists members c ↔ negated = false)
  | char c, t => t = [c]

/-- A class in it has no pair of hyphens and no range that runs backwards. -/
def Part.IsPlain : Part → Prop
  | set _ members => ¬ ['-', '-'] <:+: members ∧ Forward members
  | _ => True

instance : DecidablePred Part.IsPlain
  | .set _ _ => instDecidableAnd
  | .run | .one | .char _ => .isTrue trivial

/-- The parts of a glob. A bracket that no class goes on behind stands for itself. -/
inductive HasParts : (glob : Text) → List Part → Prop
  | nil : HasParts [] []
  | run {glob : Text} {ps : List Part} (h : HasParts glob ps) : HasParts ('*' :: glob) (.run :: ps)
  | one {glob : Text} {ps : List Part} (h : HasParts glob ps) : HasParts ('?' :: glob) (.one :: ps)
  | set {t members rest : Text} {negated : Bool} {ps : List Part}
      (closed : IsClass t negated members rest) (h : HasParts rest ps) :
    HasParts ('[' :: t) (.set negated members :: ps)
  | bracket {t : Text} {ps : List Part}
      (unclosed : ∀ negated members rest, ¬ IsClass t negated members rest) (h : HasParts t ps) :
    HasParts ('[' :: t) (.char '[' :: ps)
  | char {c : Char} {glob : Text} {ps : List Part} (hc : c ∉ ['*', '?', '['])
      (h : HasParts glob ps) : HasParts (c :: glob) (.char c :: ps)

/-- A name falls into texts that the parts take, one each. -/
def Take (ps : List Part) (name : Text) : Prop :=
  ∃ ts, List.Forall₂ Part.Takes ps ts ∧ ts.flatten = name

def Matches (glob name : Text) : Prop := ∃ ps, HasParts glob ps ∧ Take ps name

variable {glob t w members rest name : Text} {negated : Bool} {ps : List Part} {c : Char}

theorem take_nil : Take [] name ↔ name = [] := by
  constructor
  · rintro ⟨ts, hts, rfl⟩
    obtain rfl := List.forall₂_nil_left_iff.mp hts
    rfl
  · rintro rfl
    exact ⟨[], .nil, rfl⟩

theorem take_cons {q : Part} :
    Take (q :: ps) name ↔ ∃ t more, name = t ++ more ∧ q.Takes t ∧ Take ps more := by
  constructor
  · rintro ⟨ts, hts, rfl⟩
    obtain ⟨t, us, ht, hus, rfl⟩ := List.forall₂_cons_left_iff.mp hts
    exact ⟨t, us.flatten, rfl, ht, us, hus, rfl⟩
  · rintro ⟨t, more, rfl, ht, ts, hts, rfl⟩
    exact ⟨t :: ts, .cons ht hts, rfl⟩

theorem HasParts.unique {ps' : List Part} (h : HasParts glob ps) (h' : HasParts glob ps') :
    ps = ps' := by
  induction h generalizing ps' with
  | nil =>
    cases h'
    rfl
  | run h ih =>
    cases h' with
    | run h' => rw [ih h']
    | char hc => exact absurd (by decide) hc
  | one h ih =>
    cases h' with
    | one h' => rw [ih h']
    | char hc => exact absurd (by decide) hc
  | set closed h ih =>
    cases h' with
    | set closed' h' =>
      obtain ⟨rfl, rfl, rfl⟩ := closed.unique closed'
      rw [ih h']
    | bracket unclosed => exact absurd closed (unclosed _ _ _)
    | char hc => exact absurd (by decide) hc
  | bracket unclosed h ih =>
    cases h' with
    | set closed => exact absurd closed (unclosed _ _ _)
    | bracket _ h' => rw [ih h']
    | char hc => exact absurd (by decide) hc
  | char hc h ih =>
    cases h' with
    | run => exact absurd (by decide) hc
    | one => exact absurd (by decide) hc
    | set => exact absurd (by decide) hc
    | bracket => exact absurd (by decide) hc
    | char _ h' => rw [ih h']

theorem IsClass.length_lt (h : IsClass t negated members rest) : rest.length < t.length := by
  cases h <;> simp <;> omega

theorem exists_hasParts (glob : Text) : ∃ ps, HasParts glob ps := by
  match glob with
  | [] => exact ⟨[], .nil⟩
  | c :: glob =>
    obtain ⟨ps, hps⟩ := exists_hasParts glob
    by_cases hc : c ∈ ['*', '?', '[']
    · simp only [List.mem_cons, List.not_mem_nil, or_false] at hc
      obtain rfl | rfl | rfl := hc
      · exact ⟨_, .run hps⟩
      · exact ⟨_, .one hps⟩
      · by_cases hclosed : ∃ negated members rest, IsClass glob negated members rest
        · obtain ⟨negated, members, rest, closed⟩ := hclosed
          obtain ⟨qs, hqs⟩ := exists_hasParts rest
          exact ⟨_, .set closed hqs⟩
        · exact ⟨_, .bracket (fun _ _ _ closed => hclosed ⟨_, _, _, closed⟩) hps⟩
    · exact ⟨_, .char hc hps⟩
  termination_by glob.length
  decreasing_by
    · simp
    · have := closed.length_lt
      simp
      omega

theorem IsClass.writeSteps (h : IsClass t negated members rest) :
    writeSteps ('[' :: t) ++ ['$'] = writtenClass negated members (writeSteps rest ++ ['$']) := by
  obtain ⟨body, hbody, hwrite⟩ := h.exists_body
  rw [Glob.writeSteps]
  split
  · rename_i heq
    rw [hbody] at heq
    obtain ⟨rfl, rfl⟩ := Prod.mk.inj (Option.some.inj heq)
    rw [List.append_assoc, hwrite]
  · rename_i heq
    rw [hbody] at heq
    cases heq

theorem writeSteps_bracket (h : ∀ negated members rest, ¬ IsClass t negated members rest) :
    writeSteps ('[' :: t) = escape '[' ++ writeSteps t := by
  rw [writeSteps]
  split
  · rename_i heq
    obtain ⟨negated, members, closed⟩ := exists_isClass heq
    exact absurd closed (h _ _ _)
  · rfl

theorem writeSteps_char (hc : c ∉ ['*', '?', '[']) (glob : Text) :
    writeSteps (c :: glob) = escape c ++ writeSteps glob := by
  rw [writeSteps]
  · exact fun h => hc (by rw [h]; decide)
  · exact fun h => hc (by rw [h]; decide)
  · exact fun h => hc (by rw [h]; decide)

theorem head?_escape (c : Char) (t : Text) : (escape c ++ t).head? ≠ some '*' := by
  rw [escape]
  split
  · exact fun h => absurd (Option.some.inj h) (by decide)
  · rename_i hmeta
    intro h
    exact hmeta (by rw [Option.some.inj h]; decide)

/-- No part is written with a star in front, so that a star belongs to what stands before it. -/
theorem HasParts.head?_writeSteps (h : HasParts glob ps) :
    (Glob.writeSteps glob ++ ['$']).head? ≠ some '*' := by
  cases h with
  | nil =>
    rw [Glob.writeSteps]
    exact fun h => absurd (Option.some.inj h) (by decide)
  | run =>
    rw [Glob.writeSteps]
    exact fun h => absurd (Option.some.inj h) (by decide)
  | one =>
    rw [Glob.writeSteps]
    exact fun h => absurd (Option.some.inj h) (by decide)
  | set closed =>
    rw [closed.writeSteps]
    exact fun h => absurd (Option.some.inj h) (by decide)
  | bracket unclosed =>
    rw [writeSteps_bracket unclosed, List.append_assoc]
    exact head?_escape _ _
  | char hc =>
    rw [writeSteps_char hc, List.append_assoc]
    exact head?_escape _ _

/-- The text is read as steps that take the same names without a line feed. -/
def Agrees (w : Text) (ps : List Part) : Prop :=
  ∃ p, readSteps? w = some p ∧ ∀ name, '\n' ∉ name → (p.accepts name = true ↔ Take ps name)

theorem agrees_nil : Agrees ['$'] [] :=
  ⟨[], readSteps?_end, fun _ _ => accepts_nil.trans take_nil.symm⟩

theorem Agrees.single {atom : Atom} {q : Part} {P : Char → Prop}
    (h : Agrees w ps) (hhead : w.head? ≠ some '*') (hread : readAtom? t = some (atom, w))
    (hlen : w.length < t.length) (hatom : ∀ c, c ≠ '\n' → (atom.accepts c = true ↔ P c))
    (hq : ∀ s, q.Takes s ↔ ∃ c, s = [c] ∧ P c) : Agrees t (q :: ps) := by
  obtain ⟨p, hp, haccepts⟩ := h
  refine ⟨⟨atom, false⟩ :: p, ?_, fun name hname => ?_⟩
  · rw [readSteps?_of_readAtom? hread hlen, if_neg hhead, hp]
    rfl
  · rw [accepts_single, take_cons]
    constructor
    · rintro ⟨c, more, rfl, hc, hmore⟩
      obtain ⟨hline, hmore'⟩ := not_or.mp (mt List.mem_cons.mpr hname)
      exact ⟨[c], more, rfl, (hq _).mpr ⟨c, rfl, (hatom c (Ne.symm hline)).mp hc⟩,
        (haccepts more hmore').mp hmore⟩
    · rintro ⟨s, more, rfl, hs, hmore⟩
      obtain ⟨c, rfl, hc⟩ := (hq s).mp hs
      obtain ⟨hline, hmore'⟩ := not_or.mp (mt List.mem_cons.mpr hname)
      exact ⟨c, more, rfl, (hatom c (Ne.symm hline)).mpr hc, (haccepts more hmore').mpr hmore⟩

theorem Agrees.run (h : Agrees w ps) : Agrees ('.' :: '*' :: w) (.run :: ps) := by
  obtain ⟨p, hp, haccepts⟩ := h
  refine ⟨⟨.any, true⟩ :: p, ?_, fun name hname => ?_⟩
  · have hread : readAtom? ('.' :: '*' :: w) = some (.any, '*' :: w) := rfl
    rw [readSteps?_of_readAtom? hread (Nat.lt_succ_self _), List.head?_cons, if_pos rfl,
      List.tail_cons, hp]
    rfl
  · rw [accepts_many, take_cons]
    constructor
    · rintro ⟨run, more, rfl, -, hmore⟩
      exact ⟨run, more, rfl, trivial,
        (haccepts more fun h => hname (List.mem_append_right _ h)).mp hmore⟩
    · rintro ⟨run, more, rfl, -, hmore⟩
      refine ⟨run, more, rfl, fun c hc => ?_,
        (haccepts more fun h => hname (List.mem_append_right _ h)).mpr hmore⟩
      rw [Atom.accepts, bne_iff_ne]
      rintro rfl
      exact hname (List.mem_append_left _ hc)

theorem Agrees.one (h : Agrees w ps) (hhead : w.head? ≠ some '*') :
    Agrees ('.' :: w) (.one :: ps) :=
  h.single hhead rfl (Nat.lt_succ_self _) (P := fun _ => True)
    (fun c hc => iff_true_intro (bne_iff_ne.mpr hc)) fun s => by simp [Part.Takes]

theorem Agrees.char (h : Agrees w ps) (hhead : w.head? ≠ some '*') (c : Char) :
    Agrees (escape c ++ w) (.char c :: ps) := by
  have hlen : w.length < (escape c ++ w).length := by
    rw [escape]
    split <;> simp only [List.length_append, List.length_cons] <;> omega
  exact h.single hhead (readAtom?_escape c w) hlen (P := (· = c)) (fun d _ => beq_iff_eq)
    fun s => by simp [Part.Takes]

theorem Agrees.set (h : Agrees w ps) (hhead : w.head? ≠ some '*') (hne : members ≠ [])
    (hpair : ¬ ['-', '-'] <:+: members) (hforward : Forward members) (negated : Bool) :
    Agrees (writtenClass negated members w) (.set negated members :: ps) := by
  obtain ⟨atom, hread, haccepts⟩ := exists_readAtom?_of_apart hne hpair hforward negated w
  have hlen : w.length < (writtenClass negated members w).length := by
    simp only [writtenClass, written, List.length_append, List.length_cons]
    omega
  exact h.single hhead hread hlen (fun c _ => haccepts c) fun s => Iff.rfl

/-- What is written for a glob is read back as steps that take what its parts take, one for one. -/
theorem HasParts.agrees (h : HasParts glob ps) (hplain : ∀ q ∈ ps, q.IsPlain) :
    Agrees (Glob.writeSteps glob ++ ['$']) ps := by
  -- One part is written in front of the rest, which never begins with a star.
  induction h with
  | nil =>
    rw [Glob.writeSteps]
    exact agrees_nil
  | run h ih =>
    obtain ⟨-, hplain⟩ := List.forall_mem_cons.mp hplain
    rw [Glob.writeSteps]
    exact (ih hplain).run
  | one h ih =>
    obtain ⟨-, hplain⟩ := List.forall_mem_cons.mp hplain
    rw [Glob.writeSteps]
    exact (ih hplain).one h.head?_writeSteps
  | set closed h ih =>
    obtain ⟨⟨hpair, hforward⟩, hplain⟩ := List.forall_mem_cons.mp hplain
    rw [closed.writeSteps]
    exact (ih hplain).set h.head?_writeSteps closed.ne_nil hpair hforward _
  | bracket unclosed h ih =>
    obtain ⟨-, hplain⟩ := List.forall_mem_cons.mp hplain
    rw [writeSteps_bracket unclosed, List.append_assoc]
    exact (ih hplain).char h.head?_writeSteps '['
  | char hc h ih =>
    obtain ⟨-, hplain⟩ := List.forall_mem_cons.mp hplain
    rw [writeSteps_char hc, List.append_assoc]
    exact (ih hplain).char h.head?_writeSteps _

/-- A glob whose classes have no pair of hyphens and no range that runs backwards compiles, and what
it compiles to takes the names that match it. -/
theorem compile?_faithful (glob : Text) (h : ∀ ps, HasParts glob ps → ∀ q ∈ ps, q.IsPlain) :
    ∃ p, compile? glob = some p ∧
      ∀ name, '\n' ∉ name → (p.accepts name = true ↔ Matches glob name) := by
  obtain ⟨ps, hps⟩ := exists_hasParts glob
  obtain ⟨p, hread, haccepts⟩ := hps.agrees (h ps hps)
  refine ⟨p, hread, fun name hname => (haccepts name hname).trans ?_⟩
  constructor
  · intro htake
    exact ⟨ps, hps, htake⟩
  · rintro ⟨ps', hps', htake⟩
    rwa [hps.unique hps']

/-- In `[!]a-c-]*[x` the first bracket opens a class, with a bracket for its first member, and the
last one is a character. -/
theorem compile?_faithful_with_brackets :
    HasParts "[!]a-c-]*[x".toList [.set true "]a-c-".toList, .run, .char '[', .char 'x'] ∧
      ∃ p, compile? "[!]a-c-]*[x".toList = some p ∧ p.accepts "d.ts[x".toList = true ∧
        p.accepts "b.ts[x".toList = false := by
  have hclass : IsClass ('!' :: "]a-c-".toList ++ ']' :: "*[x".toList) true "]a-c-".toList
      "*[x".toList := .negated (.inl rfl) (by decide) (by decide)
  have hunclosed (negated : Bool) (members rest : Text) : ¬ IsClass ['x'] negated members rest := by
    intro h
    obtain ⟨body, hbody, -⟩ := h.exists_body
    have hnone : classBody? ['x'] = none := by decide
    rw [hnone] at hbody
    cases hbody
  have hparts : HasParts "[!]a-c-]*[x".toList
      [.set true "]a-c-".toList, .run, .char '[', .char 'x'] :=
    .set hclass (.run (.bracket hunclosed (.char (by decide) .nil)))
  have hplain (ps : List Part) (h : HasParts "[!]a-c-]*[x".toList ps) : ∀ q ∈ ps, q.IsPlain := by
    obtain rfl := hparts.unique h
    decide
  obtain ⟨p, hp, haccepts⟩ := compile?_faithful "[!]a-c-]*[x".toList hplain
  have htake : Take [.set true "]a-c-".toList, .run, .char '[', .char 'x'] "d.ts[x".toList :=
    ⟨["d".toList, ".ts".toList, "[".toList, "x".toList],
      .cons ⟨'d', rfl, by decide⟩ (.cons trivial (.cons rfl (.cons rfl .nil))), by decide⟩
  refine ⟨hparts, p, hp, (haccepts _ (by decide)).mpr ⟨_, hparts, htake⟩, ?_⟩
  refine Bool.eq_false_iff.mpr (mt (haccepts _ (by decide)).mp ?_)
  rintro ⟨ps, h, htake⟩
  obtain rfl := hparts.unique h
  obtain ⟨t, more, heq, ⟨c, rfl, hc⟩, -⟩ := take_cons.mp htake
  obtain ⟨rfl, -⟩ := List.cons.inj heq
  exact absurd hc (by decide)

end Glob

end CleanCopy
