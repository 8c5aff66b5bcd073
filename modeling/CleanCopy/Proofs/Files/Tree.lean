import CleanCopy.Files.Node
import CleanCopy.Proofs.Text.Path

namespace CleanCopy

namespace Node

mutual

/-- A tree without links, in which the entries of every directory have proper names, each once and
in order. -/
def Tidy : Node → Prop
  | file _ => True
  | dir es => TidyEntries es
  | link _ => False

def TidyEntries : List (Text × Node) → Prop
  | [] => True
  | (name, n) :: es =>
    (name.IsName ∧ n.Tidy) ∧ (∀ e ∈ es, Text.compare name e.1 = .lt) ∧ TidyEntries es

end

mutual

def decideTidy : (n : Node) → Decidable n.Tidy
  | file _ => .isTrue trivial
  | dir es => decideTidyEntries es
  | link _ => .isFalse id

def decideTidyEntries : (es : List (Text × Node)) → Decidable (TidyEntries es)
  | [] => .isTrue trivial
  | (_, n) :: es =>
    haveI := decideTidy n
    haveI := decideTidyEntries es
    inferInstanceAs (Decidable ((_ ∧ _) ∧ _ ∧ _))

end

instance : DecidablePred Tidy := decideTidy

/-- What a reader sees of a node: the bytes of a file, or that it is none. -/
def shape : Node → Option ByteArray
  | file c => some c
  | _ => none

/-- What stands at a place. -/
def look (root : Node) (x : Place) : Option (Option ByteArray) := (root.get? x).map shape

/-- A node without what lies in it. -/
def emptied : Node → Node
  | file c => file c
  | dir _ => dir []
  | link t => link t

/-- What stands at a place, with links told from directories. -/
def sight (root : Node) (x : Place) : Option Node := (root.get? x).map emptied

theorem shape_emptied (n : Node) : n.emptied.shape = n.shape := by cases n <;> rfl

theorem look_eq_sight (root : Node) (x : Place) : root.look x = (root.sight x).map shape := by
  rw [look, sight, Option.map_map]
  exact congrArg (Option.map · _) (funext fun n => (shape_emptied n).symm)

end Node

open Node

theorem lookup_cons (m n : Text) (x : Node) (es : List (Text × Node)) :
    ((n, x) :: es).lookup m = if m = n then some x else es.lookup m := by
  rw [List.lookup_cons]
  by_cases h : m = n
  · simp [h]
  · rw [if_neg h, beq_eq_false_iff_ne.mpr h]

theorem lookup_insertEntry (m n : Text) (x : Node) (es : List (Text × Node)) :
    (insertEntry n x es).lookup m = if m = n then some x else es.lookup m := by
  induction es with
  | nil => rw [insertEntry, lookup_cons]
  | cons e es ih =>
    obtain ⟨k, old⟩ := e
    rw [insertEntry]
    split
    · rw [lookup_cons]
    · rename_i hc
      rw [lookup_cons, lookup_cons, Text.compare_eq_iff.mp hc]
      split <;> rfl
    · rename_i hc
      rw [lookup_cons, lookup_cons, ih]
      have hne : n ≠ k := fun h => by rw [h, Text.compare_self] at hc; cases hc
      by_cases h : m = k
      · rw [if_pos h, if_pos h, if_neg (h.trans_ne hne.symm)]
      · rw [if_neg h, if_neg h]

theorem mem_insertEntry {n : Text} {x : Node} {es : List (Text × Node)} {e : Text × Node}
    (h : e ∈ insertEntry n x es) : e = (n, x) ∨ e ∈ es := by
  induction es with
  | nil => exact .inl (List.mem_singleton.mp h)
  | cons e' es ih =>
    obtain ⟨k, old⟩ := e'
    rw [insertEntry] at h
    split at h
    · exact List.mem_cons.mp h
    · rcases List.mem_cons.mp h with h | h
      · exact .inl h
      · exact .inr (List.mem_cons_of_mem _ h)
    · rcases List.mem_cons.mp h with h | h
      · exact .inr (h ▸ List.mem_cons_self)
      · exact (ih h).imp id (List.mem_cons_of_mem _)

namespace Node

variable {root new : Node} {n : Text} {x y : Place} {es : List (Text × Node)}

theorem TidyEntries.lookup (h : TidyEntries es) {child : Node} (hl : es.lookup n = some child) :
    n.IsName ∧ child.Tidy := by
  induction es with
  | nil => cases hl
  | cons e es ih =>
    obtain ⟨k, old⟩ := e
    rw [TidyEntries] at h
    rw [lookup_cons] at hl
    split at hl
    · rename_i hn
      obtain rfl := Option.some.inj hl
      rw [hn]
      exact h.1
    · exact ih h.2.2 hl

theorem TidyEntries.insertEntry (h : TidyEntries es) (hn : n.IsName) (hx : new.Tidy) :
    TidyEntries (insertEntry n new es) := by
  induction es with
  | nil => exact ⟨⟨hn, hx⟩, fun _ h => absurd h List.not_mem_nil, trivial⟩
  | cons e es ih =>
    obtain ⟨k, old⟩ := e
    rw [TidyEntries] at h
    rw [CleanCopy.insertEntry]
    split
    · rename_i hc
      refine ⟨⟨hn, hx⟩, fun e he => ?_, h⟩
      rcases List.mem_cons.mp he with rfl | he
      · exact hc
      · exact Text.compare_trans hc (h.2.1 e he)
    · rename_i hc
      rw [Text.compare_eq_iff.mp hc] at hn ⊢
      exact ⟨⟨hn, hx⟩, h.2.1, h.2.2⟩
    · rename_i hc
      refine ⟨h.1, fun e he => ?_, ih h.2.2⟩
      rcases mem_insertEntry he with rfl | he
      · exact Text.compare_gt_iff.mp hc
      · exact h.2.1 e he

theorem get?_append (root : Node) (x y : Place) :
    root.get? (x ++ y) = (root.get? x).bind (·.get? y) := by
  induction x generalizing root with
  | nil => rfl
  | cons n x ih =>
    rw [List.cons_append, get?, get?]
    cases root.entries.lookup n with
    | none => rfl
    | some child => exact ih child

theorem get?_concat (root : Node) (x : Place) (n : Text) :
    root.get? (x ++ [n]) = (root.get? x).bind (·.entries.lookup n) := by
  rw [get?_append]
  cases root.get? x with
  | none => rfl
  | some node =>
    rw [Option.bind_some, Option.bind_some, get?]
    cases node.entries.lookup n <;> rfl

theorem get?_of_entries_nil {node : Node} (h : node.entries = []) (hx : x ≠ []) :
    node.get? x = none := by
  cases x with
  | nil => exact absurd rfl hx
  | cons n x => rw [get?, h]; rfl

/-- What has something below it has entries. -/
theorem exists_entry {node : Node} (h : root.get? (n :: x) = some node) :
    ∃ es child, root = .dir es ∧ es.lookup n = some child ∧ child.get? x = some node := by
  obtain ⟨child, hl, hbelow⟩ := Option.bind_eq_some_iff.mp h
  cases root with
  | file c => cases hl
  | link t => cases hl
  | dir es => exact ⟨es, child, rfl, hl, hbelow⟩

theorem Tidy.get? (h : root.Tidy) {node : Node} (hx : root.get? x = some node) :
    node.Tidy ∧ ∀ n ∈ x, n.IsName := by
  induction x generalizing root with
  | nil =>
    obtain rfl := Option.some.inj hx
    exact ⟨h, fun _ h => absurd h List.not_mem_nil⟩
  | cons n x ih =>
    obtain ⟨es, child, rfl, hl, hbelow⟩ := exists_entry hx
    obtain ⟨hn, hc⟩ := TidyEntries.lookup h hl
    obtain ⟨hnode, hnames⟩ := ih hc hbelow
    exact ⟨hnode, List.forall_mem_cons.mpr ⟨hn, hnames⟩⟩

theorem look_eq_file {c : ByteArray} : root.look x = some (some c) ↔ root.get? x = some (.file c) := by
  rw [look]
  constructor
  · intro h
    obtain ⟨node, hn, hs⟩ := Option.map_eq_some_iff.mp h
    cases node with
    | file c' => rw [hn, ← Option.some.inj hs]
    | dir es => cases hs
    | link t => cases hs
  · intro h
    rw [h]
    rfl

theorem look_eq_none : root.look x = none ↔ root.get? x = none := Option.map_eq_none_iff

theorem look_cons (es : List (Text × Node)) (n : Text) (x : Place) :
    Node.look (.dir es) (n :: x) = (es.lookup n).bind (·.look x) := by
  rw [look, Node.get?]
  change ((es.lookup n).bind _).map shape = _
  cases es.lookup n <;> rfl

/-- What is no file is a directory. -/
theorem Tidy.look_eq_dir (h : root.Tidy) :
    root.look x = some none ↔ ∃ es, root.get? x = some (.dir es) := by
  constructor
  · intro hx
    obtain ⟨node, hn, hs⟩ := Option.map_eq_some_iff.mp hx
    cases node with
    | file c => cases hs
    | dir es => exact ⟨es, hn⟩
    | link t => exact absurd (h.get? hn).1 id
  · rintro ⟨es, hx⟩
    rw [look, hx]
    rfl

/-- What has something below it is a directory. -/
theorem look_of_append {v : Option ByteArray} (h : root.look (x ++ y) = some v) (hy : y ≠ []) :
    root.look x = some none := by
  obtain ⟨node, hn, -⟩ := Option.map_eq_some_iff.mp h
  rw [get?_append] at hn
  obtain ⟨above, ha, hb⟩ := Option.bind_eq_some_iff.mp hn
  rw [look, ha]
  cases above with
  | file c => rw [get?_of_entries_nil rfl hy] at hb; cases hb
  | dir es => rfl
  | link t => rfl

theorem put_nil (root new : Node) : root.put [] new = new := by
  cases root <;> rfl

theorem put_of_lookup {child : Node} (h : es.lookup n = some child) :
    (dir es).put (n :: x) new = dir (insertEntry n (child.put x new) es) := by
  rw [Node.put.eq_def]
  simp only [h]

theorem put_of_free (h : es.lookup n = none) :
    (dir es).put (n :: x) new = if x = [] then dir (insertEntry n new es) else dir es := by
  rw [Node.put.eq_def]
  simp only [h]
  cases x <;> rfl

theorem Tidy.put (h : root.Tidy) (hn : new.Tidy) (hx : ∀ n ∈ x, n.IsName) :
    (root.put x new).Tidy := by
  induction x generalizing root with
  | nil =>
    rw [put_nil]
    exact hn
  | cons n x ih =>
    obtain ⟨hname, hx⟩ := List.forall_mem_cons.mp hx
    cases root with
    | file c => exact h
    | link t => exact h
    | dir es =>
      cases hl : es.lookup n with
      | some child =>
        rw [put_of_lookup hl]
        exact TidyEntries.insertEntry h hname (ih (TidyEntries.lookup h hl).2 hx)
      | none =>
        rw [put_of_free hl]
        split
        · exact TidyEntries.insertEntry h hname hn
        · exact h

theorem sight_cons (es : List (Text × Node)) (n : Text) (x : Place) :
    Node.sight (.dir es) (n :: x) = (es.lookup n).bind (·.sight x) := by
  rw [sight, Node.get?]
  change ((es.lookup n).bind _).map emptied = _
  cases es.lookup n <;> rfl

theorem sight_of_entries_nil {node : Node} (h : node.entries = []) (hx : x ≠ []) :
    node.sight x = none := by
  rw [sight, get?_of_entries_nil h hx]
  rfl

/-- A new leaf at the top of a tree. -/
theorem sight_insertEntry {m : Text} (hnew : new.entries = [])
    (hold : ∀ old, es.lookup n = some old → old.entries = []) :
    Node.sight (.dir (insertEntry n new es)) (m :: y) =
      if m :: y = [n] then some new.emptied else Node.sight (.dir es) (m :: y) := by
  rw [sight_cons, sight_cons, lookup_insertEntry]
  by_cases hm : m = n
  · subst hm
    rw [if_pos rfl, Option.bind_some]
    cases y with
    | nil =>
      rw [if_pos rfl]
      rfl
    | cons k y =>
      have hbelow : (es.lookup m).bind (·.sight (k :: y)) = none := by
        cases hl : es.lookup m with
        | none => rfl
        | some old => exact sight_of_entries_nil (hold old hl) (List.cons_ne_nil k y)
      rw [if_neg (by simp), hbelow, sight_of_entries_nil hnew (List.cons_ne_nil k y)]
  · rw [if_neg hm, if_neg (by simp [hm])]

/-- A new leaf in a directory changes nothing but its own place. -/
theorem sight_put (hd : root.get? x = some (.dir es)) (hnew : new.entries = [])
    (hold : ∀ old, es.lookup n = some old → old.entries = []) :
    (root.put (x ++ [n]) new).sight y =
      if y = x ++ [n] then some new.emptied else root.sight y := by
  induction x generalizing root y with
  | nil =>
    obtain rfl := Option.some.inj hd
    have hput : Node.put (.dir es) ([] ++ [n]) new = .dir (insertEntry n new es) := by
      rw [List.nil_append]
      cases hl : es.lookup n with
      | none => rw [put_of_free hl, if_pos rfl]
      | some child => rw [put_of_lookup hl, put_nil]
    rw [hput, List.nil_append]
    cases y with
    | nil => rfl
    | cons m y => exact sight_insertEntry hnew hold
  | cons m x ih =>
    obtain ⟨es', child, rfl, hl, hbelow⟩ := exists_entry hd
    rw [List.cons_append, put_of_lookup hl]
    -- Above the leaf one entry gives way to the same entry with the leaf in it.
    cases y with
    | nil => rfl
    | cons k y =>
      rw [sight_cons, sight_cons, lookup_insertEntry]
      by_cases hk : k = m
      · subst hk
        rw [if_pos rfl, Option.bind_some, ih hbelow, hl]
        simp
      · rw [if_neg hk, if_neg (by simp [hk])]

theorem look_put (hd : root.get? x = some (.dir es)) (hnew : new.entries = [])
    (hold : ∀ old, es.lookup n = some old → old.entries = []) :
    (root.put (x ++ [n]) new).look y = if y = x ++ [n] then some new.shape else root.look y := by
  rw [look_eq_sight, look_eq_sight, sight_put hd hnew hold]
  split
  · rw [Option.map_some, shape_emptied]
  · rfl

end Node

end CleanCopy
