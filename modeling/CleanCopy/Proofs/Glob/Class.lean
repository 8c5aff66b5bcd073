import CleanCopy.Glob.Basic
import CleanCopy.Proofs.Lex.Search
import CleanCopy.Proofs.Text.Lists

namespace CleanCopy.Glob

open Pattern

/-- `t` goes on behind an opening bracket with a class: the mark of a negated one, members, of which
only the first can be a bracket, and the closing bracket. -/
inductive IsClass : (t : Text) → (negated : Bool) → (members rest : Text) → Prop
  | plain {members rest : Text} (unmarked : ∀ c ∈ members.head?, c ≠ '!' ∧ c ≠ '^')
      (nonempty : members ≠ []) (closed : ']' ∉ members.tail) :
    IsClass (members ++ ']' :: rest) false members rest
  | negated {mark : Char} {members rest : Text} (marked : mark = '!' ∨ mark = '^')
      (nonempty : members ≠ []) (closed : ']' ∉ members.tail) :
    IsClass (mark :: members ++ ']' :: rest) true members rest

/-- What is listed from left to right: a range where a hyphen stands between two characters, else a
character by itself. -/
def listed : Text → List (Char × Char)
  | lo :: '-' :: hi :: t => (lo, hi) :: listed t
  | c :: t => (c, c) :: listed t
  | [] => []

def Lists (members : Text) (c : Char) : Prop := ∃ r ∈ listed members, r.1 ≤ c ∧ c ≤ r.2

instance (members : Text) (c : Char) : Decidable (Lists members c) :=
  inferInstanceAs (Decidable (∃ r ∈ listed members, r.1 ≤ c ∧ c ≤ r.2))

/-- No range runs backwards. -/
def Forward (members : Text) : Prop := ∀ r ∈ listed members, r.1 ≤ r.2

instance (members : Text) : Decidable (Forward members) :=
  inferInstanceAs (Decidable (∀ r ∈ listed members, r.1 ≤ r.2))

/-- The stretches between pairs of hyphens. -/
def stretches : Text → List Text
  | '-' :: '-' :: t => [] :: stretches t
  | c :: t => (stretches t).modifyHead (c :: ·)
  | [] => [[]]

variable {t members rest : Text} {negated : Bool} {c lo hi : Char} {rs : List (Char × Char)}
  {waiting : Option (CharSet × SetOp)}

theorem stretches_cons (h : c = '-' → t.head? ≠ some '-') :
    stretches (c :: t) = (stretches t).modifyHead (c :: ·) := by
  rw [stretches.eq_def]
  split
  · rename_i heq
    obtain ⟨rfl, rfl⟩ := List.cons.inj heq
    exact absurd rfl (h rfl)
  · rename_i heq
    obtain ⟨rfl, rfl⟩ := List.cons.inj heq
    rfl
  · rename_i heq
    cases heq

theorem stretches_ne_nil (t : Text) : stretches t ≠ [] := by
  fun_induction stretches t with
  | case1 => exact List.cons_ne_nil _ _
  | case2 c t _ ih => simpa using ih
  | case3 => exact List.cons_ne_nil _ _

theorem listed_cons (h : ∀ hi s, t ≠ '-' :: hi :: s) : listed (c :: t) = (c, c) :: listed t := by
  rw [listed.eq_def]
  split
  · rename_i heq
    obtain ⟨rfl, rfl⟩ := List.cons.inj heq
    exact absurd rfl (h _ _)
  · rename_i heq
    obtain ⟨rfl, rfl⟩ := List.cons.inj heq
    rfl
  · rename_i heq
    cases heq

/-- Where a stretch begins with the end of a range, so does the text. -/
theorem eq_of_stretches {s : Text} {ss : List Text} (h : stretches t = ('-' :: hi :: s) :: ss) :
    ∃ u, t = '-' :: hi :: u ∧ hi ≠ '-' := by
  rw [stretches.eq_def] at h
  split at h
  · cases h
  · rename_i x u hpair
    cases hu : stretches u with
    | nil => exact absurd hu (stretches_ne_nil u)
    | cons s' ss' =>
      rw [hu, List.modifyHead_cons] at h
      obtain ⟨hs, rfl⟩ := List.cons.inj h
      obtain ⟨rfl, rfl⟩ := List.cons.inj hs
      rw [stretches.eq_def] at hu
      split at hu
      · cases hu
      · rename_i y v hpair'
        cases hv : stretches v with
        | nil => exact absurd hv (stretches_ne_nil v)
        | cons s' ss' =>
          rw [hv, List.modifyHead_cons] at hu
          obtain ⟨rfl, -⟩ := List.cons.inj (List.cons.inj hu).1
          exact ⟨v, rfl, fun hy => hpair v rfl (by rw [hy])⟩
      · cases hu
  · cases h

/-- Members as they are written, with the closing bracket and what follows it. Hyphens stay as they
are, and so a pattern still sees ranges and pairs of hyphens. -/
def written (members rest : Text) : Text := members.flatMap escapeMember ++ ']' :: rest

theorem written_cons (c : Char) (t rest : Text) :
    written (c :: t) rest = escapeMember c ++ written t rest := by
  rw [written, List.flatMap_cons, List.append_assoc]
  rfl

theorem written_hyphen (t rest : Text) : written ('-' :: t) rest = '-' :: written t rest := rfl

theorem escapeMember_cases (c : Char) : escapeMember c = ['\\', c] ∧ isMeta c = true ∧ c ≠ '-' ∨
    escapeMember c = [c] ∧ c ∉ ['\\', '[', ']', '^', '&', '~'] := by
  by_cases h : c ∈ ['\\', '[', ']', '^', '&', '~']
  · refine .inl ⟨if_pos (List.contains_iff_mem.mpr h), ?_⟩
    simp only [List.mem_cons, List.not_mem_nil, or_false] at h
    rcases h with rfl | rfl | rfl | rfl | rfl | rfl <;> decide
  · exact .inr ⟨if_neg (mt List.contains_iff_mem.mp h), h⟩

/-- An escaped character begins what is written only as the closing bracket. -/
theorem head?_written_of_escaped {d : Char} (hd : d ∈ ['[', ']', '^', '&', '~'])
    (h : (written t rest).head? = some d) : t = [] ∧ d = ']' := by
  cases t with
  | nil => exact ⟨rfl, (Option.some.inj h).symm⟩
  | cons c t =>
    rw [written_cons] at h
    rcases escapeMember_cases c with ⟨hc, -⟩ | ⟨hc, hmem⟩
    · rw [hc] at h
      obtain rfl := Option.some.inj h
      exact absurd hd (by decide)
    · rw [hc] at h
      obtain rfl := Option.some.inj h
      exact absurd (List.mem_cons_of_mem _ hd) hmem

theorem head?_written : (written t rest).head? = some ']' ↔ t = [] := by
  refine ⟨fun h => (head?_written_of_escaped (by decide) h).1, ?_⟩
  rintro rfl
  rfl

theorem head?_written_hyphen : (written t rest).head? = some '-' ↔ t.head? = some '-' := by
  cases t with
  | nil => exact iff_of_false (fun h => absurd (Option.some.inj h) (by decide)) nofun
  | cons c t =>
    rw [written_cons]
    rcases escapeMember_cases c with ⟨hc, -, hne⟩ | ⟨hc, -⟩
    · rw [hc]
      exact iff_of_false (fun h => absurd (Option.some.inj h) (by decide))
        fun h => hne (Option.some.inj h)
    · rw [hc]
      exact Iff.rfl

theorem readMember?_escapeMember (c : Char) (t : Text) :
    readMember? (escapeMember c ++ t) = some (c, t) := by
  rcases escapeMember_cases c with ⟨hc, hmeta, -⟩ | ⟨hc, hmem⟩
  · rw [hc]
    exact if_pos hmeta
  · rw [hc, List.singleton_append, readMember?.eq_def]
    split
    · rename_i heq
      exact absurd (List.cons.inj heq).1 fun h => hmem (by rw [h]; decide)
    · rename_i heq
      exact absurd (List.cons.inj heq).1 fun h => hmem (by rw [h]; decide)
    · rename_i heq
      obtain ⟨rfl, rfl⟩ := List.cons.inj heq
      rfl
    · rename_i heq
      cases heq

theorem afterRangeMark?_written (h : hi ≠ '-') :
    afterRangeMark? (written ('-' :: hi :: t) rest) = some (written (hi :: t) rest) := by
  have hclose : (written (hi :: t) rest).head? ≠ some ']' :=
    fun he => List.cons_ne_nil _ _ (head?_written.mp he)
  have hhyphen : (written (hi :: t) rest).head? ≠ some '-' :=
    fun he => h (Option.some.inj (head?_written_hyphen.mp he))
  rw [written_hyphen, afterRangeMark?, if_neg (by simp [hclose, hhyphen])]

theorem afterRangeMark?_written_none (h : ∀ hi u, t = '-' :: hi :: u → hi = '-') :
    afterRangeMark? (written t rest) = none := by
  rw [afterRangeMark?.eq_def]
  split
  · rename_i more heq
    have hhead : t.head? = some '-' := head?_written_hyphen.mp (by rw [heq]; rfl)
    obtain ⟨u, rfl⟩ := List.head?_eq_some_iff.mp hhead
    obtain rfl := (List.cons.inj ((written_hyphen u rest).symm.trans heq)).2
    refine if_pos ?_
    cases u with
    | nil => rfl
    | cons hi v =>
      obtain rfl := h hi v rfl
      rfl
  · rfl

theorem readRange?_range (h : hi ≠ '-') :
    readRange? (written (c :: '-' :: hi :: t) rest) =
      if c ≤ hi then some ((c, hi), written t rest) else none := by
  rw [written_cons, readRange?, readMember?_escapeMember]
  dsimp only
  rw [afterRangeMark?_written h]
  dsimp only
  rw [written_cons, readMember?_escapeMember]

theorem readRange?_single (h : ∀ hi u, t = '-' :: hi :: u → hi = '-') :
    readRange? (written (c :: t) rest) = some ((c, c), written t rest) := by
  rw [written_cons, readRange?, readMember?_escapeMember]
  dsimp only
  rw [afterRangeMark?_written_none h]
  exact if_neg (by simp [written])

/-- Members are read as ranges, one after the other. -/
theorem readMembers?_cons (h : c = '-' → t.head? ≠ some '-') :
    readMembers? waiting rs (written (c :: t) rest) =
      (readRange? (written (c :: t) rest)).bind fun (r, more) =>
        readMembers? waiting (rs ++ [r]) more := by
  have hpair (u : Text) (hc : c = '-') : written t rest ≠ '-' :: u := fun he =>
    h hc (head?_written_hyphen.mp (congrArg List.head? he))
  rw [written_cons]
  rcases escapeMember_cases c with ⟨hc, -⟩ | ⟨hc, hmem⟩
  · rw [hc, List.cons_append, List.singleton_append, readMembers?]
    · split <;> rename_i heq <;> simp [heq]
    all_goals simp
  · rw [hc, List.singleton_append, readMembers?]
    · split <;> rename_i heq <;> simp [heq]
    all_goals simp_all

theorem readMembers?_pair (t : Text) :
    readMembers? waiting rs (written ('-' :: '-' :: t) rest) =
      readMembers? (some (finish waiting rs, .difference)) [] (written t rest) := by
  rw [written_hyphen, written_hyphen, readMembers?]

theorem readMembers?_range (hc : c ≠ '-') (hhi : hi ≠ '-') :
    readMembers? waiting rs (written (c :: '-' :: hi :: t) rest) =
      if c ≤ hi then readMembers? waiting (rs ++ [(c, hi)]) (written t rest) else none := by
  rw [readMembers?_cons fun h => absurd h hc, readRange?_range hhi]
  split <;> rfl

theorem readMembers?_single (hfirst : c = '-' → t.head? ≠ some '-')
    (hnext : ∀ hi u, t = '-' :: hi :: u → hi = '-') :
    readMembers? waiting rs (written (c :: t) rest) =
      readMembers? waiting (rs ++ [(c, c)]) (written t rest) := by
  rw [readMembers?_cons hfirst, readRange?_single hnext]
  rfl

/-- A set without what some more members list. -/
def without (set : CharSet) (members : Text) : CharSet :=
  .op .difference set (.ranges (listed members))

/-- What is made of stretches: what the first one lists, without what the others list. -/
def gather (waiting : Option (CharSet × SetOp)) (rs : List (Char × Char)) : List Text → CharSet
  | [] => finish waiting rs
  | s :: ss => ss.foldl without (finish waiting (rs ++ listed s))

theorem gather_nil_cons {ss : List Text} (h : ss ≠ []) :
    gather waiting rs ([] :: ss) = gather (some (finish waiting rs, .difference)) [] ss := by
  cases ss with
  | nil => exact absurd rfl h
  | cons s ss =>
    rw [gather, gather, List.foldl_cons, listed, List.append_nil, List.nil_append]
    rfl

theorem forward_nil : Forward [] := fun _ h => absurd h List.not_mem_nil

theorem forward_range : Forward (lo :: '-' :: hi :: t) ↔ lo ≤ hi ∧ Forward t := by
  rw [Forward, listed, List.forall_mem_cons]
  rfl

theorem forward_cons (h : ∀ hi s, t ≠ '-' :: hi :: s) : Forward (c :: t) ↔ Forward t := by
  rw [Forward, listed_cons h, List.forall_mem_cons]
  exact and_iff_right (Char.le_refl c)

/-- The members of a class are read stretch by stretch. -/
theorem readMembers?_written (t : Text) (waiting : Option (CharSet × SetOp))
    (rs : List (Char × Char)) : readMembers? waiting rs (written t rest) =
      if ∀ s ∈ stretches t, Forward s then some (gather waiting rs (stretches t), rest)
      else none := by
  match t with
  | [] =>
    rw [stretches, if_pos (List.forall_mem_singleton.mpr forward_nil), written, List.flatMap_nil,
      List.nil_append, readMembers?, gather, listed, List.append_nil, List.foldl_nil]
  | c :: u =>
    -- A pair of hyphens ends a stretch; a hyphen before another character makes a range.
    by_cases hpair : c = '-' ∧ u.head? = some '-'
    · obtain ⟨rfl, hu⟩ := hpair
      obtain ⟨v, rfl⟩ := List.head?_eq_some_iff.mp hu
      rw [readMembers?_pair, readMembers?_written v, stretches,
        gather_nil_cons (stretches_ne_nil v)]
      simp only [List.forall_mem_cons, forward_nil, true_and]
    · have hfirst : c = '-' → u.head? ≠ some '-' := fun hc hu => hpair ⟨hc, hu⟩
      by_cases hrange : ∃ hi v, u = '-' :: hi :: v ∧ hi ≠ '-'
      · obtain ⟨hi, v, rfl, hhi⟩ := hrange
        obtain ⟨s, ss, hv⟩ := List.exists_cons_of_ne_nil (stretches_ne_nil v)
        have hc : c ≠ '-' := fun hc => hfirst hc rfl
        rw [readMembers?_range hc hhi, readMembers?_written v, stretches_cons hfirst,
          stretches_cons fun _ => by simpa using hhi, stretches_cons fun h => absurd h hhi, hv]
        simp only [List.modifyHead_cons, List.forall_mem_cons, forward_range, gather, listed,
          List.append_assoc, List.singleton_append, and_assoc]
        by_cases hle : c ≤ hi <;> simp only [hle, true_and, false_and, if_true, if_false]
      · have hnext (hi : Char) (v : Text) (hu : u = '-' :: hi :: v) : hi = '-' :=
          by_contra fun hhi => hrange ⟨hi, v, hu, hhi⟩
        obtain ⟨s, ss, hu⟩ := List.exists_cons_of_ne_nil (stretches_ne_nil u)
        have hs (hi : Char) (s' : Text) : s ≠ '-' :: hi :: s' := fun he =>
          hrange ⟨hi, eq_of_stretches (he ▸ hu)⟩
        rw [readMembers?_single hfirst hnext, readMembers?_written u, stretches_cons hfirst, hu]
        simp only [List.modifyHead_cons, List.forall_mem_cons, forward_cons hs, gather,
          listed_cons hs, List.append_assoc, List.singleton_append]
  termination_by t.length

theorem cut?_singleton_iff {d : Char} {a b : Text} :
    Text.cut? [d] t = some (a, b) ↔ t = a ++ d :: b ∧ d ∉ a := by
  constructor
  · intro h
    induction t generalizing a with
    | nil => cases h
    | cons c cs ih =>
      have happ := Text.cut?_append h
      rw [List.append_assoc] at happ
      refine ⟨happ.symm, ?_⟩
      rw [Text.cut?] at h
      split at h
      · obtain ⟨rfl, -⟩ := Prod.mk.inj (Option.some.inj h)
        exact List.not_mem_nil
      · rename_i hnone
        obtain ⟨⟨a', b'⟩, hcut, he⟩ := Option.map_eq_some_iff.mp h
        obtain ⟨rfl, rfl⟩ := Prod.mk.inj he
        rintro (_ | ⟨_, hmem⟩)
        · simp [Text.after?] at hnone
        · exact (ih hcut).2 hmem
  · rintro ⟨rfl, hmem⟩
    have hhere : Text.cut? [d] (d :: b) = some ([], b) := Text.cut?_self_append [d] b
    have hapart (c : Char) (hc : c ∈ a) : c ∉ [d] := fun hd => hmem (List.mem_singleton.mp hd ▸ hc)
    rw [Text.cut?_append_of_apart (List.cons_ne_nil _ _) hapart, hhere]
    exact congrArg (fun u => some (u, b)) (List.append_nil a)

/-- Behind the mark, the members of a class go on to the first closing bracket but one that comes
first. -/
def classMembers? (t : Text) : Option (Text × Text) :=
  let first := t.takeOne (· = ']')
  (Text.cut? [']'] first.2).map fun (members, rest) => (first.1 ++ members, rest)

theorem classMembers?_eq_some_iff : classMembers? t = some (members, rest) ↔
    t = members ++ ']' :: rest ∧ members ≠ [] ∧ ']' ∉ members.tail := by
  cases t with
  | nil => exact iff_of_false nofun (by simp)
  | cons c cs =>
    rw [classMembers?, Option.map_eq_some_iff]
    -- A bracket that comes first is a member, and what closes the class stands behind it.
    by_cases hc : c = ']'
    · subst hc
      constructor
      · rintro ⟨⟨ms, after⟩, hcut, he⟩
        obtain ⟨rfl, hmem⟩ := cut?_singleton_iff.mp hcut
        obtain ⟨rfl, rfl⟩ := Prod.mk.inj he
        exact ⟨rfl, List.cons_ne_nil _ _, hmem⟩
      · rintro ⟨heq, hne, hmem⟩
        obtain ⟨m, ms, rfl⟩ := List.exists_cons_of_ne_nil hne
        obtain ⟨rfl, rfl⟩ := List.cons.inj heq
        exact ⟨(ms, rest), cut?_singleton_iff.mpr ⟨rfl, hmem⟩, rfl⟩
    · have hfirst : Text.takeOne (· = ']') (c :: cs) = ([], c :: cs) := if_neg (by simpa using hc)
      rw [hfirst]
      constructor
      · rintro ⟨⟨ms, after⟩, hcut, he⟩
        obtain ⟨heq, hmem⟩ := cut?_singleton_iff.mp hcut
        obtain ⟨rfl, rfl⟩ := Prod.mk.inj he
        refine ⟨heq, ?_, fun h => hmem (List.mem_of_mem_tail h)⟩
        rintro rfl
        exact hc (List.cons.inj heq).1
      · rintro ⟨heq, hne, hmem⟩
        obtain ⟨m, ms, rfl⟩ := List.exists_cons_of_ne_nil hne
        obtain ⟨rfl, hcs⟩ := List.cons.inj heq
        have hmem' : ']' ∉ c :: ms := fun h => (List.mem_cons.mp h).elim (fun he => hc he.symm) hmem
        exact ⟨(c :: ms, rest), cut?_singleton_iff.mpr ⟨heq, hmem'⟩, rfl⟩

theorem classBody?_eq (t : Text) : classBody? t =
    (classMembers? (t.takeOne fun c => c = '!' || c = '^').2).map fun (members, rest) =>
      ((t.takeOne fun c => c = '!' || c = '^').1 ++ members, rest) := by
  rw [classBody?, classMembers?, Option.map_map]
  simp [Function.comp_def]

theorem takeOne_of_marked {mark : Char} (h : mark = '!' ∨ mark = '^') (t : Text) :
    Text.takeOne (fun c => c = '!' || c = '^') (mark :: t) = ([mark], t) :=
  if_pos (by simpa using h)

theorem takeOne_of_unmarked (h : ∀ c ∈ t.head?, c ≠ '!' ∧ c ≠ '^') :
    t.takeOne (fun c => c = '!' || c = '^') = ([], t) := by
  cases t with
  | nil => rfl
  | cons c cs => exact if_neg (by simpa using h c rfl)

theorem IsClass.ne_nil (h : IsClass t negated members rest) : members ≠ [] := by
  cases h <;> assumption

theorem IsClass.takeOne (h : IsClass t negated members rest) : ∃ mark,
    t.takeOne (fun c => c = '!' || c = '^') = (mark, members ++ ']' :: rest) ∧
      negated = !mark.isEmpty := by
  cases h with
  | plain unmarked nonempty =>
    obtain ⟨m, ms, rfl⟩ := List.exists_cons_of_ne_nil nonempty
    exact ⟨[], takeOne_of_unmarked unmarked, rfl⟩
  | negated marked => exact ⟨[_], takeOne_of_marked marked _, rfl⟩

theorem IsClass.classMembers? (h : IsClass t negated members rest) :
    classMembers? (members ++ ']' :: rest) = some (members, rest) := by
  cases h with
  | plain _ nonempty closed => exact classMembers?_eq_some_iff.mpr ⟨rfl, nonempty, closed⟩
  | negated _ nonempty closed => exact classMembers?_eq_some_iff.mpr ⟨rfl, nonempty, closed⟩

theorem IsClass.unique {negated' : Bool} {members' rest' : Text}
    (h : IsClass t negated members rest) (h' : IsClass t negated' members' rest') :
    negated = negated' ∧ members = members' ∧ rest = rest' := by
  obtain ⟨mark, htake, hnegated⟩ := h.takeOne
  obtain ⟨mark', htake', hnegated'⟩ := h'.takeOne
  obtain ⟨rfl, heq⟩ := Prod.mk.inj (htake.symm.trans htake')
  have hmembers := h'.classMembers?
  rw [← heq, h.classMembers?] at hmembers
  exact ⟨hnegated.trans hnegated'.symm, Prod.mk.inj (Option.some.inj hmembers)⟩

/-- A class as it is written, with what follows it. -/
def writtenClass (negated : Bool) (members after : Text) : Text :=
  '[' :: (if negated then ['^'] else []) ++ written members after

theorem writeClass_of_unmarked (h : ∀ c ∈ members.head?, c ≠ '!' ∧ c ≠ '^') (after : Text) :
    writeClass members ++ after = writtenClass false members after := by
  rw [writeClass.eq_def]
  split
  · exact absurd rfl (h '!' rfl).1
  · exact absurd rfl (h '^' rfl).2
  · exact congrArg ('[' :: ·) (List.append_assoc _ [']'] after)

theorem writeClass_of_marked {mark : Char} (h : mark = '!' ∨ mark = '^') (members after : Text) :
    writeClass (mark :: members) ++ after = writtenClass true members after := by
  rcases h with rfl | rfl
  · exact congrArg ('[' :: '^' :: ·) (List.append_assoc _ [']'] after)
  · exact congrArg ('[' :: '^' :: ·) (List.append_assoc _ [']'] after)

theorem IsClass.exists_body (h : IsClass t negated members rest) : ∃ body,
    classBody? t = some (body, rest) ∧
      ∀ after, writeClass body ++ after = writtenClass negated members after := by
  have hmembers := h.classMembers?
  cases h with
  | plain unmarked nonempty closed =>
    obtain ⟨m, ms, rfl⟩ := List.exists_cons_of_ne_nil nonempty
    refine ⟨m :: ms, ?_, writeClass_of_unmarked unmarked⟩
    rw [classBody?_eq, takeOne_of_unmarked (t := m :: ms ++ ']' :: rest) unmarked, hmembers]
    rfl
  | negated marked nonempty closed =>
    rename_i mark
    refine ⟨mark :: members, ?_, writeClass_of_marked marked members⟩
    rw [classBody?_eq, List.cons_append, takeOne_of_marked marked, hmembers]
    rfl

theorem exists_isClass {body : Text} (h : classBody? t = some (body, rest)) :
    ∃ negated members, IsClass t negated members rest := by
  rw [classBody?_eq] at h
  obtain ⟨⟨members, after⟩, hmembers, he⟩ := Option.map_eq_some_iff.mp h
  obtain ⟨-, rfl⟩ := Prod.mk.inj he
  obtain ⟨heq, hne, hclosed⟩ := classMembers?_eq_some_iff.mp hmembers
  by_cases hmark : ∃ mark u, t = mark :: u ∧ (mark = '!' ∨ mark = '^')
  · obtain ⟨mark, u, rfl, hmark⟩ := hmark
    rw [takeOne_of_marked hmark] at heq
    obtain rfl := heq
    exact ⟨true, members, .negated hmark hne hclosed⟩
  · have hunmarked : ∀ c ∈ t.head?, c ≠ '!' ∧ c ≠ '^' := by
      intro c hc
      obtain ⟨u, rfl⟩ := List.head?_eq_some_iff.mp hc
      exact not_or.mp fun h => hmark ⟨c, u, rfl, h⟩
    rw [takeOne_of_unmarked hunmarked] at heq
    obtain rfl := heq
    obtain ⟨m, ms, rfl⟩ := List.exists_cons_of_ne_nil hne
    exact ⟨false, m :: ms, .plain hunmarked hne hclosed⟩

/-- A class as a pattern reads it: hyphens that come first are members, and behind them each
stretch but the first takes away what it lists. -/
def Leaves (members : Text) (c : Char) : Prop :=
  (c ∈ members.takeWhile (· = '-') ∨
    Lists ((stretches (members.dropWhile (· = '-'))).headD []) c) ∧
      ∀ s ∈ (stretches (members.dropWhile (· = '-'))).tail, ¬ Lists s c

instance (members : Text) (c : Char) : Decidable (Leaves members c) := instDecidableAnd

theorem head?_written_caret : (written t rest).head? ≠ some '^' := fun h =>
  absurd (head?_written_of_escaped (by decide) h).2 (by decide)

theorem takeOne_of_head?_ne {d : Char} (h : t.head? ≠ some d) : t.takeOne (· = d) = ([], t) := by
  cases t with
  | nil => rfl
  | cons c cs => exact if_neg fun hc => h (congrArg some (of_decide_eq_true hc))

/-- Hyphens that come first are written as they are. -/
theorem span_written (t rest : Text) :
    (written t rest).takeWhile (· = '-') = t.takeWhile (· = '-') ∧
      (written t rest).dropWhile (· = '-') = written (t.dropWhile (· = '-')) rest := by
  by_cases hhead : t.head? = some '-'
  · obtain ⟨u, rfl⟩ := List.head?_eq_some_iff.mp hhead
    obtain ⟨htake, hdrop⟩ := span_written u rest
    exact ⟨congrArg ('-' :: ·) htake, hdrop⟩
  · obtain ⟨htake, hdrop⟩ := List.span_of_head?_ne hhead
    obtain ⟨htake', hdrop'⟩ := List.span_of_head?_ne (mt head?_written_hyphen.mp hhead)
    rw [htake, hdrop, htake', hdrop']
    exact ⟨rfl, rfl⟩
  termination_by t.length

theorem takeOne_caret_written (negated : Bool) :
    Text.takeOne (· = '^') ((if negated then ['^'] else []) ++ written members rest) =
      (if negated then ['^'] else [], written members rest) := by
  cases negated with
  | false => exact takeOne_of_head?_ne head?_written_caret
  | true => rfl

/-- A closing bracket could be a member by itself only with nothing before it, and there it is
escaped. -/
theorem takeOne_bracket_written (hne : members ≠ []) :
    (if (members.takeWhile (· = '-')).isEmpty then
      Text.takeOne (· = ']') (written (members.dropWhile (· = '-')) rest)
      else ([], written (members.dropWhile (· = '-')) rest)) =
        ([], written (members.dropWhile (· = '-')) rest) := by
  split
  · rename_i hempty
    refine takeOne_of_head?_ne fun h => hne ?_
    have happ := List.takeWhile_append_dropWhile (p := (· = '-')) (l := members)
    rw [List.isEmpty_iff.mp hempty, head?_written.mp h] at happ
    exact happ.symm
  · rfl

theorem readClass?_written (hne : members ≠ []) :
    readClass? ((if negated then ['^'] else []) ++ written members rest) =
      if ∀ s ∈ stretches (members.dropWhile (· = '-')), Forward s then
        some (.set negated (gather none ((members.takeWhile (· = '-')).map fun c => (c, c))
          (stretches (members.dropWhile (· = '-')))), rest)
      else none := by
  have hnegated : (!(if negated then ['^'] else [] : Text).isEmpty) = negated := by
    cases negated <;> rfl
  obtain ⟨htake, hdrop⟩ := span_written members rest
  rw [readClass?]
  dsimp only
  rw [takeOne_caret_written]
  dsimp only
  rw [htake, hdrop, takeOne_bracket_written hne]
  dsimp only
  rw [List.append_nil, readMembers?_written, hnegated]
  split <;> rfl

theorem readAtom?_writtenClass (hne : members ≠ []) :
    readAtom? (writtenClass negated members rest) =
      if ∀ s ∈ stretches (members.dropWhile (· = '-')), Forward s then
        some (.set negated (gather none ((members.takeWhile (· = '-')).map fun c => (c, c))
          (stretches (members.dropWhile (· = '-')))), rest)
      else none :=
  readClass?_written hne

theorem contains_ranges : (CharSet.ranges rs).contains c = true ↔ ∃ r ∈ rs, r.1 ≤ c ∧ c ≤ r.2 := by
  simp [CharSet.contains]

theorem contains_foldl_without {set : CharSet} {ss : List Text} :
    (ss.foldl without set).contains c = true ↔ set.contains c = true ∧ ∀ s ∈ ss, ¬ Lists s c := by
  induction ss generalizing set with
  | nil => simp
  | cons s ss ih =>
    have hwithout : (without set s).contains c = true ↔ set.contains c = true ∧ ¬ Lists s c := by
      rw [without, CharSet.contains, Bool.and_eq_true, Bool.not_eq_true', ← Bool.not_eq_true,
        contains_ranges]
      rfl
    rw [List.foldl_cons, ih, hwithout, List.forall_mem_cons, and_assoc]

/-- What a class leaves is what a pattern takes for it. -/
theorem accepts_gather :
    (Atom.set negated (gather none ((members.takeWhile (· = '-')).map fun c => (c, c))
      (stretches (members.dropWhile (· = '-'))))).accepts c = true ↔
        (Leaves members c ↔ negated = false) := by
  obtain ⟨s, ss, hs⟩ := List.exists_cons_of_ne_nil (stretches_ne_nil (members.dropWhile (· = '-')))
  have hcontains : (gather none ((members.takeWhile (· = '-')).map fun c => (c, c))
      (s :: ss)).contains c = true ↔ Leaves members c := by
    rw [gather, contains_foldl_without, finish, contains_ranges, Leaves, hs]
    refine and_congr_left fun _ => ?_
    simp only [List.mem_append, or_and_right, exists_or]
    refine or_congr ⟨?_, fun h => ⟨(c, c), List.mem_map_of_mem h, Char.le_refl c, Char.le_refl c⟩⟩
      Iff.rfl
    rintro ⟨r, hr, hlo, hhi⟩
    obtain ⟨d, hd, rfl⟩ := List.mem_map.mp hr
    rwa [← Char.le_antisymm hlo hhi]
  rw [hs, Atom.accepts, ← hcontains]
  cases (gather none ((members.takeWhile (· = '-')).map fun c => (c, c)) (s :: ss)).contains c <;>
    cases negated <;> decide

theorem exists_readAtom? (hne : members ≠ [])
    (hforward : ∀ s ∈ stretches (members.dropWhile (· = '-')), Forward s) (negated : Bool)
    (after : Text) : ∃ atom, readAtom? (writtenClass negated members after) = some (atom, after) ∧
      ∀ c, atom.accepts c = true ↔ (Leaves members c ↔ negated = false) := by
  rw [readAtom?_writtenClass hne, if_pos hforward]
  exact ⟨_, rfl, fun c => accepts_gather⟩

theorem stretches_of_apart (h : ¬ ['-', '-'] <:+: t) : stretches t = [t] := by
  induction t with
  | nil => rfl
  | cons c t ih =>
    have hpair (hc : c = '-') (ht : t.head? = some '-') : False := by
      obtain ⟨u, rfl⟩ := List.head?_eq_some_iff.mp ht
      exact h ⟨[], u, by rw [hc]; rfl⟩
    rw [stretches_cons hpair, ih (mt List.infix_cons h), List.modifyHead_cons]

/-- Without a pair of hyphens, at most one hyphen comes first. -/
theorem span_of_apart (h : ¬ ['-', '-'] <:+: t) :
    t.takeWhile (· = '-') = [] ∧ t.dropWhile (· = '-') = t ∨
      ∃ u, t = '-' :: u ∧ t.takeWhile (· = '-') = ['-'] ∧ t.dropWhile (· = '-') = u := by
  by_cases hhead : t.head? = some '-'
  · obtain ⟨u, rfl⟩ := List.head?_eq_some_iff.mp hhead
    have hu : u.head? ≠ some '-' := by
      intro hu
      obtain ⟨v, rfl⟩ := List.head?_eq_some_iff.mp hu
      exact h ⟨[], v, rfl⟩
    obtain ⟨htake, hdrop⟩ := List.span_of_head?_ne hu
    exact .inr ⟨u, rfl, congrArg ('-' :: ·) htake, hdrop⟩
  · exact .inl (List.span_of_head?_ne hhead)

theorem listed_hyphen_of_apart (h : ¬ ['-', '-'] <:+: '-' :: t) :
    listed ('-' :: t) = ('-', '-') :: listed t :=
  listed_cons fun hi s ht => h ⟨[], hi :: s, by rw [ht]; rfl⟩

theorem leaves_of_apart (h : ¬ ['-', '-'] <:+: members) : Leaves members c ↔ Lists members c := by
  rcases span_of_apart h with ⟨htake, hdrop⟩ | ⟨u, rfl, htake, hdrop⟩
  · rw [Leaves, htake, hdrop, stretches_of_apart h]
    simp
  · have hfirst : Lists ('-' :: u) c ↔ c ∈ ['-'] ∨ Lists u c := by
      rw [Lists, listed_hyphen_of_apart h, List.exists_mem_cons_iff, List.mem_singleton]
      exact or_congr_left ⟨fun hc => Char.le_antisymm hc.2 hc.1, fun hc => by subst hc; decide⟩
    rw [Leaves, htake, hdrop, stretches_of_apart (mt List.infix_cons h), hfirst]
    exact and_iff_left fun _ h => absurd h List.not_mem_nil

theorem forward_stretches_of_apart (h : ¬ ['-', '-'] <:+: members) :
    (∀ s ∈ stretches (members.dropWhile (· = '-')), Forward s) ↔ Forward members := by
  rcases span_of_apart h with ⟨-, hdrop⟩ | ⟨u, rfl, -, hdrop⟩
  · rw [hdrop, stretches_of_apart h, List.forall_mem_singleton]
  · rw [hdrop, stretches_of_apart (mt List.infix_cons h), List.forall_mem_singleton, Forward,
      Forward, listed_hyphen_of_apart h, List.forall_mem_cons]
    exact (and_iff_right (Char.le_refl '-')).symm

theorem exists_readAtom?_of_apart (hne : members ≠ []) (hpair : ¬ ['-', '-'] <:+: members)
    (hforward : Forward members) (negated : Bool) (after : Text) :
    ∃ atom, readAtom? (writtenClass negated members after) = some (atom, after) ∧
      ∀ c, atom.accepts c = true ↔ (Lists members c ↔ negated = false) := by
  obtain ⟨atom, hatom, haccepts⟩ := exists_readAtom? hne
    ((forward_stretches_of_apart hpair).mpr hforward) negated after
  exact ⟨atom, hatom, fun c => (haccepts c).trans (iff_congr (leaves_of_apart hpair) Iff.rfl)⟩

/-- A class is written so that a pattern reads it as `Leaves` says, or not at all when a range
between two pairs of hyphens runs backwards. Without a pair of hyphens no character in it has a
meaning of its own there: the pattern takes what is listed, or what is not. -/
theorem IsClass.readAtom?_writeClass (h : IsClass t negated members rest) (after : Text) :
    ∃ body, classBody? t = some (body, rest) ∧
      ((∀ s ∈ stretches (members.dropWhile (· = '-')), Forward s) →
        ∃ atom, readAtom? (writeClass body ++ after) = some (atom, after) ∧
          ∀ c, atom.accepts c = true ↔ (Leaves members c ↔ negated = false)) ∧
      ((∃ s ∈ stretches (members.dropWhile (· = '-')), ¬ Forward s) →
        readAtom? (writeClass body ++ after) = none) ∧
      (¬ ['-', '-'] <:+: members → Forward members →
        ∃ atom, readAtom? (writeClass body ++ after) = some (atom, after) ∧
          ∀ c, atom.accepts c = true ↔ (Lists members c ↔ negated = false)) := by
  obtain ⟨body, hbody, hwrite⟩ := h.exists_body
  refine ⟨body, hbody, ?_⟩
  rw [hwrite]
  refine ⟨fun hforward => exists_readAtom? h.ne_nil hforward negated after,
    fun ⟨s, hs, hback⟩ => ?_,
    fun hpair hforward => exists_readAtom?_of_apart h.ne_nil hpair hforward negated after⟩
  rw [readAtom?_writtenClass h.ne_nil, if_neg fun hforward => hback (hforward s hs)]

/-- In `[!]a-c-]` the bracket, `a` to `c` and the hyphen are what is not taken. -/
theorem IsClass.readAtom?_writeClass_negated :
    IsClass "!]a-c-]x".toList true "]a-c-".toList ['x'] ∧
      ∃ atom, readAtom? ("[^\\]a-c-]".toList ++ ['$']) = some (atom, ['$']) ∧
        atom.accepts 'b' = false ∧ atom.accepts ']' = false ∧ atom.accepts 'd' = true := by
  have hclass : IsClass ('!' :: "]a-c-".toList ++ ']' :: ['x']) true "]a-c-".toList ['x'] :=
    .negated (.inl rfl) (by decide) (by decide)
  obtain ⟨body, hbody, -, -, hread⟩ := hclass.readAtom?_writeClass ['$']
  obtain rfl : "!]a-c-".toList = body := congrArg Prod.fst (Option.some.inj hbody)
  obtain ⟨atom, hatom, haccepts⟩ := hread (by decide) (by decide)
  exact ⟨hclass, atom, hatom, Bool.eq_false_iff.mpr (mt (haccepts 'b').mp (by decide)),
    Bool.eq_false_iff.mpr (mt (haccepts ']').mp (by decide)), (haccepts 'd').mpr (by decide)⟩

/-- The pair of hyphens in `[a-c--b]` takes `b` away, though `a-c` lists it. -/
theorem IsClass.readAtom?_writeClass_loses_member :
    IsClass "a-c--b]".toList false "a-c--b".toList [] ∧ Forward "a-c--b".toList ∧
      Lists "a-c--b".toList 'b' ∧
      ∃ body atom, classBody? "a-c--b]".toList = some (body, []) ∧
        readAtom? (writeClass body) = some (atom, []) ∧ atom.accepts 'b' = false := by
  have hunmarked : ∀ c ∈ "a-c--b".toList.head?, c ≠ '!' ∧ c ≠ '^' := by
    intro c hc
    obtain rfl : 'a' = c := Option.some.inj hc
    decide
  have hclass : IsClass ("a-c--b".toList ++ ']' :: []) false "a-c--b".toList [] :=
    .plain hunmarked (by decide) (by decide)
  obtain ⟨body, hbody, hwrite⟩ := hclass.exists_body
  obtain ⟨atom, hatom, haccepts⟩ := exists_readAtom? hclass.ne_nil (by decide) false []
  rw [← hwrite, List.append_nil] at hatom
  exact ⟨hclass, by decide, by decide, body, atom, hbody, hatom,
    Bool.eq_false_iff.mpr (mt (haccepts 'b').mp (by decide))⟩

end CleanCopy.Glob
