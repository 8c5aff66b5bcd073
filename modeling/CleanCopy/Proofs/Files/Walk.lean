import CleanCopy.Files.Walk
import CleanCopy.Proofs.Files.Tree
import Mathlib.Data.List.Nodup

namespace CleanCopy

namespace Place

/-- The order of two places by the names that lead to them. -/
def Before (x y : Place) : Prop :=
  Component.compareAll (x.map .name) (y.map .name) = .lt

theorem before_of_compare {x y z : Place} {m n : Text} (h : Text.compare m n = .lt) :
    Before (x ++ m :: y) (x ++ n :: z) := by
  rw [Before, List.map_append, List.map_append, Component.compareAll_append, List.map_cons, List.map_cons,
    Component.compareAll]
  change (Text.compare m n).then _ = _
  rw [h]
  rfl

theorem Before.asymm {x y : Place} (h : Before x y) : ¬ Before y x := by
  intro h'
  rw [Before, ← Component.compareAll_swap, show Component.compareAll _ _ = .lt from h] at h'
  cases h'

instance : Std.Irrefl Before := ⟨fun _ h => h.asymm h⟩

/-- Lists of places in order are equal when they have the same members. -/
theorem eq_of_pairwise_before {xs ys : List Place} (hx : xs.Pairwise Before)
    (hy : ys.Pairwise Before) (h : ∀ x, x ∈ xs ↔ x ∈ ys) : xs = ys := by
  have hperm : xs.Perm ys := (List.perm_ext_iff_of_nodup hx.nodup hy.nodup).mpr h
  exact List.Perm.eq_of_pairwise (fun a b _ _ hab hba => absurd hba hab.asymm) hx hy hperm

end Place

namespace Node

mutual

/-- A tree in which the entries of every directory are in the order of their names, each name once;
there may be links in it. -/
def Ordered : Node → Prop
  | file _ => True
  | dir es => OrderedEntries es
  | link _ => True

def OrderedEntries : List (Text × Node) → Prop
  | [] => True
  | (name, n) :: es =>
    n.Ordered ∧ (∀ e ∈ es, Text.compare name e.1 = .lt) ∧ OrderedEntries es

end

mutual

def decideOrdered : (n : Node) → Decidable n.Ordered
  | file _ => .isTrue trivial
  | dir es => decideOrderedEntries es
  | link _ => .isTrue trivial

def decideOrderedEntries : (es : List (Text × Node)) → Decidable (OrderedEntries es)
  | [] => .isTrue trivial
  | (_, n) :: es =>
    haveI := decideOrdered n
    haveI := decideOrderedEntries es
    inferInstanceAs (Decidable (_ ∧ _ ∧ _))

end

instance : DecidablePred Ordered := decideOrdered

mutual

theorem Tidy.ordered {node : Node} (h : node.Tidy) : node.Ordered :=
  match node, h with
  | file _, _ => trivial
  | dir _, h => TidyEntries.ordered h
  | link _, h => absurd h id

theorem TidyEntries.ordered {es : List (Text × Node)} (h : TidyEntries es) : OrderedEntries es :=
  match es, h with
  | [], _ => trivial
  | (_, _) :: _, h => ⟨h.1.2.ordered, h.2.1, TidyEntries.ordered h.2.2⟩

end

variable {admits : Place → Bool → Bool} {place x : Place} {es : List (Text × Node)}
  {node root : Node}

theorem OrderedEntries.mem_iff {n : Text} (h : OrderedEntries es) :
    (n, node) ∈ es ↔ es.lookup n = some node := by
  induction es with
  | nil => simp
  | cons e es ih =>
    obtain ⟨k, old⟩ := e
    rw [OrderedEntries] at h
    rw [lookup_cons, List.mem_cons, ih h.2.2, Prod.mk.injEq]
    by_cases hk : n = k
    · subst hk
      have hnone : es.lookup n ≠ some node := by
        intro hl
        have := h.2.1 _ ((ih h.2.2).mpr hl)
        rw [Text.compare_self] at this
        cases this
      simp [hnone, eq_comm]
    · simp [hk]

theorem OrderedEntries.lookup {n : Text} (h : OrderedEntries es) (hl : es.lookup n = some node) :
    node.Ordered := by
  induction es with
  | nil => cases hl
  | cons e es ih =>
    rw [lookup_cons] at hl
    split at hl
    · exact Option.some.inj hl ▸ h.1
    · exact ih h.2.2 hl

theorem Ordered.get? (h : root.Ordered) (hx : root.get? x = some node) : node.Ordered := by
  induction x generalizing root with
  | nil => exact Option.some.inj hx ▸ h
  | cons n x ih =>
    obtain ⟨es, child, rfl, hl, hbelow⟩ := exists_entry hx
    exact ih (OrderedEntries.lookup h hl) hbelow

theorem mem_walkEntries : x ∈ walkEntries admits place es ↔
    ∃ e ∈ es, admits (place ++ [e.1]) e.2.isDir = true ∧ x ∈ walk admits (place ++ [e.1]) e.2 := by
  induction es with
  | nil => simp [walkEntries]
  | cons e es ih =>
    obtain ⟨name, n⟩ := e
    rw [walkEntries, List.mem_append, ih]
    simp only [List.mem_cons, exists_eq_or_imp]
    refine or_congr_left ?_
    split
    · rename_i h
      simp [h]
    · rename_i h
      simp [h]

mutual

theorem walk_below (node : Node) (place : Place) (hx : x ∈ walk admits place node) :
    ∃ y, x = place ++ y :=
  match node with
  | file _ => ⟨[], by rw [List.mem_singleton.mp hx, List.append_nil]⟩
  | dir es =>
    have ⟨n, y, h⟩ := walkEntries_below es place hx
    ⟨n :: y, h⟩
  | link _ => absurd hx List.not_mem_nil

theorem walkEntries_below (es : List (Text × Node)) (place : Place)
    (hx : x ∈ walkEntries admits place es) : ∃ n y, x = place ++ n :: y := by
  match es with
  | [] => exact absurd hx List.not_mem_nil
  | (name, n) :: es =>
    rw [walkEntries] at hx
    rcases List.mem_append.mp hx with hx | hx
    · split at hx
      · obtain ⟨y, rfl⟩ := walk_below n (place ++ [name]) hx
        exact ⟨name, y, by rw [List.append_assoc]; rfl⟩
      · exact absurd hx List.not_mem_nil
    · exact walkEntries_below es place hx

end

/-- A walk goes into all that lies on the way to a place. -/
def Admitted (admits : Place → Bool → Bool) (place : Place) (y : Place) : Prop :=
  ∀ front back, y = front ++ back → front ≠ [] → admits (place ++ front) (decide (back ≠ [])) = true

theorem admitted_nil : Admitted admits place [] := by
  intro front back h hne
  exact absurd (List.append_eq_nil_iff.mp h.symm).1 hne

theorem admitted_cons {n : Text} {y : Place} : Admitted admits place (n :: y) ↔
    admits (place ++ [n]) (decide (y ≠ [])) = true ∧ Admitted admits (place ++ [n]) y := by
  constructor
  · intro h
    refine ⟨h [n] y rfl (List.cons_ne_nil n []), fun front back hy _ => ?_⟩
    have := h (n :: front) back (by rw [hy]; rfl) (List.cons_ne_nil n front)
    rwa [List.append_cons] at this
  · rintro ⟨hn, hy⟩ front back heq hne
    obtain ⟨m, front, rfl⟩ := List.exists_cons_of_ne_nil hne
    rw [List.cons_append] at heq
    obtain ⟨rfl, htail⟩ := List.cons.inj heq
    by_cases hf : front = []
    · rw [hf, List.nil_append] at htail
      rwa [hf, ← htail]
    · rw [List.append_cons]
      exact hy front back htail hf

/-- A node through which a file is reached is a directory, unless it is the file. -/
theorem isDir_of_look {y : Place} {c : ByteArray} (h : node.look y = some (some c)) :
    node.isDir = decide (y ≠ []) := by
  cases y with
  | nil =>
    obtain rfl := Option.some.inj (look_eq_file.mp h)
    rfl
  | cons m y =>
    have : node.look [] = some none := look_of_append h (List.cons_ne_nil m y)
    cases node with
    | dir es => rfl
    | file c => cases this
    | link t => cases h

/-- A walk finds the regular files that it is admitted to. -/
theorem mem_walk {y : Place} (ho : node.Ordered) : place ++ y ∈ walk admits place node ↔
    (∃ c, node.look y = some (some c)) ∧ Admitted admits place y := by
  induction y generalizing node place with
  | nil =>
    rw [List.append_nil]
    cases node with
    | file c => exact ⟨fun _ => ⟨⟨c, rfl⟩, admitted_nil⟩, fun _ => List.mem_singleton.mpr rfl⟩
    | dir es =>
      constructor
      · intro h
        obtain ⟨n, y, heq⟩ := walkEntries_below es place h
        simp at heq
      · rintro ⟨⟨c, hc⟩, -⟩
        cases hc
    | link t => exact iff_of_false List.not_mem_nil fun ⟨⟨_, hc⟩, _⟩ => nomatch hc
  | cons n y ih =>
    cases node with
    | file c =>
      constructor
      · intro h
        simpa using List.mem_singleton.mp h
      · rintro ⟨⟨c, hc⟩, -⟩
        cases hc
    | link t => exact iff_of_false List.not_mem_nil fun ⟨⟨_, hc⟩, _⟩ => nomatch hc
    | dir es =>
      rw [admitted_cons, walk, mem_walkEntries, look_cons]
      constructor
      · rintro ⟨⟨m, child⟩, hmem, hadm, hx⟩
        obtain ⟨z, hz⟩ := walk_below child _ hx
        -- What the walk finds below an entry begins with the entry's name.
        obtain ⟨rfl, rfl⟩ : n = m ∧ y = z := by
          rw [← List.append_cons] at hz
          exact List.cons.inj (List.append_cancel_left hz)
        have hl := (OrderedEntries.mem_iff ho).mp hmem
        obtain ⟨⟨c, hc⟩, hy⟩ := (ih (OrderedEntries.lookup ho hl)).mp (by rwa [← List.append_cons])
        rw [hl, ← isDir_of_look hc]
        exact ⟨⟨c, hc⟩, hadm, hy⟩
      · rintro ⟨⟨c, hc⟩, hadm, hy⟩
        obtain ⟨child, hl, hc⟩ := Option.bind_eq_some_iff.mp hc
        rw [← isDir_of_look hc] at hadm
        refine ⟨(n, child), (OrderedEntries.mem_iff ho).mpr hl, hadm, ?_⟩
        have := (ih (OrderedEntries.lookup ho hl)).mpr ⟨⟨c, hc⟩, hy⟩
        rwa [← List.append_cons] at this

mutual

theorem walk_pairwise (node : Node) (place : Place) (ho : node.Ordered) :
    (walk admits place node).Pairwise Place.Before :=
  match node with
  | file _ => List.pairwise_singleton _ _
  | dir es => walkEntries_pairwise es place ho
  | link _ => List.Pairwise.nil

theorem walkEntries_pairwise (es : List (Text × Node)) (place : Place) (ho : OrderedEntries es) :
    (walkEntries admits place es).Pairwise Place.Before := by
  match es with
  | [] => exact List.Pairwise.nil
  | (name, n) :: es =>
    rw [OrderedEntries] at ho
    rw [walkEntries, List.pairwise_append]
    refine ⟨?_, walkEntries_pairwise es place ho.2.2, fun a ha b hb => ?_⟩
    · split
      · exact walk_pairwise n _ ho.1
      · exact List.Pairwise.nil
    · split at ha
      · obtain ⟨y, rfl⟩ := walk_below n _ ha
        obtain ⟨e, he, -, hb⟩ := mem_walkEntries.mp hb
        obtain ⟨z, rfl⟩ := walk_below e.2 _ hb
        rw [List.append_assoc, List.append_assoc]
        exact Place.before_of_compare (ho.2.1 e he)
      · exact absurd ha List.not_mem_nil

end

/-- A walk is a matter of where files are. -/
theorem walk_eq_of_look {other : Node} (ho : node.Ordered) (ho' : other.Ordered)
    (h : ∀ y, (∃ c, node.look y = some (some c)) ↔ ∃ c, other.look y = some (some c)) :
    node.walk admits [] = other.walk admits [] := by
  refine Place.eq_of_pairwise_before (walk_pairwise node [] ho) (walk_pairwise other [] ho') fun y => ?_
  rw [← List.nil_append y, mem_walk ho, mem_walk ho', h]

end Node

end CleanCopy
