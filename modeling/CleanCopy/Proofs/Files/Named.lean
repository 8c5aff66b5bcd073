import CleanCopy.Proofs.Files.Extends
import CleanCopy.Proofs.Files.Walk
import CleanCopy.Proofs.Text.Join
import CleanCopy.Select.Search

namespace CleanCopy

namespace Node

mutual

/-- A tree in which every entry has a proper name; there may be links in it. -/
def Named : Node → Prop
  | file _ => True
  | dir es => NamedEntries es
  | link _ => True

def NamedEntries : List (Text × Node) → Prop
  | [] => True
  | (name, n) :: es => (name.IsName ∧ n.Named) ∧ NamedEntries es

end

mutual

def decideNamed : (n : Node) → Decidable n.Named
  | file _ => .isTrue trivial
  | dir es => decideNamedEntries es
  | link _ => .isTrue trivial

def decideNamedEntries : (es : List (Text × Node)) → Decidable (NamedEntries es)
  | [] => .isTrue trivial
  | (_, n) :: es =>
    haveI := decideNamed n
    haveI := decideNamedEntries es
    inferInstanceAs (Decidable ((_ ∧ _) ∧ _))

end

instance : DecidablePred Named := decideNamed

variable {admits : Place → Bool → Bool} {place x : Place} {es : List (Text × Node)} {node root : Node}

theorem NamedEntries.lookup (h : NamedEntries es) {n : Text} (hl : es.lookup n = some node) :
    n.IsName ∧ node.Named := by
  induction es with
  | nil => cases hl
  | cons e es ih =>
    rw [lookup_cons] at hl
    split at hl
    · rename_i hn
      rw [hn]
      exact Option.some.inj hl ▸ h.1
    · exact ih h.2 hl

theorem NamedEntries.insertEntry (h : NamedEntries es) {n : Text} (hn : n.IsName)
    (hnode : node.Named) : NamedEntries (insertEntry n node es) := by
  induction es with
  | nil => exact ⟨⟨hn, hnode⟩, trivial⟩
  | cons e es ih =>
    rw [CleanCopy.insertEntry]
    split
    · exact ⟨⟨hn, hnode⟩, h⟩
    · exact ⟨⟨hn, hnode⟩, h.2⟩
    · exact ⟨h.1, ih h.2⟩

theorem Named.get? (h : root.Named) (hx : root.get? x = some node) : node.Named := by
  induction x generalizing root with
  | nil => exact Option.some.inj hx ▸ h
  | cons n x ih =>
    obtain ⟨child, hchild, hrest⟩ := Option.bind_eq_some_iff.mp hx
    cases root with
    | dir es => exact ih (NamedEntries.lookup h hchild).2 hrest
    | file c => cases hchild
    | link t => cases hchild

theorem Named.isName_of_get? (h : root.Named) (hx : root.get? x = some node) : ∀ n ∈ x, n.IsName := by
  induction x generalizing root with
  | nil => exact fun _ hn => absurd hn List.not_mem_nil
  | cons n x ih =>
    obtain ⟨es, child, rfl, hl, hbelow⟩ := exists_entry hx
    obtain ⟨hn, hchild⟩ := NamedEntries.lookup h hl
    exact List.forall_mem_cons.mpr ⟨hn, ih hchild hbelow⟩

theorem Named.put (h : root.Named) (hnode : node.Named) {n : Text} (hn : n.IsName) (x : Place) :
    (root.put (x ++ [n]) node).Named := by
  induction x generalizing root with
  | nil =>
    cases root with
    | file c => exact h
    | link t => exact h
    | dir es =>
      have hput := NamedEntries.insertEntry h hn hnode
      rw [List.nil_append]
      cases hl : es.lookup n with
      | some child =>
        rw [put_of_lookup hl, put_nil]
        exact hput
      | none =>
        rw [put_of_free hl, if_pos rfl]
        exact hput
  | cons m x ih =>
    cases root with
    | file c => exact h
    | link t => exact h
    | dir es =>
      rw [List.cons_append]
      cases hl : es.lookup m with
      | some child =>
        obtain ⟨hm, hchild⟩ := NamedEntries.lookup h hl
        rw [put_of_lookup hl]
        exact NamedEntries.insertEntry h hm (ih hchild)
      | none =>
        rw [put_of_free hl, if_neg (by simp)]
        exact h

mutual

theorem Named.walk (node : Node) (place : Place) (h : node.Named)
    (hx : x ∈ Node.walk admits place node) : ∃ y, x = place ++ y ∧ ∀ n ∈ y, n.IsName :=
  match node with
  | file _ => ⟨[], by rw [List.mem_singleton.mp hx, List.append_nil], fun _ h => absurd h List.not_mem_nil⟩
  | dir es =>
    have ⟨n, y, hx, hy⟩ := NamedEntries.walk es place h hx
    ⟨n :: y, hx, hy⟩
  | link _ => absurd hx List.not_mem_nil

theorem NamedEntries.walk (es : List (Text × Node)) (place : Place) (h : NamedEntries es)
    (hx : x ∈ walkEntries admits place es) :
    ∃ n y, x = place ++ n :: y ∧ ∀ m ∈ n :: y, m.IsName := by
  match es with
  | [] => exact absurd hx List.not_mem_nil
  | (name, n) :: es =>
    rw [walkEntries] at hx
    rcases List.mem_append.mp hx with hx | hx
    · split at hx
      · obtain ⟨y, rfl, hy⟩ := Named.walk n (place ++ [name]) h.1.2 hx
        exact ⟨name, y, by rw [List.append_assoc]; rfl, List.forall_mem_cons.mpr ⟨h.1.1, hy⟩⟩
      · exact absurd hx List.not_mem_nil
    · exact NamedEntries.walk es place h.2 hx

end

end Node

theorem Disk.makeDirs_named {d : Disk} (h : d.root.Named) (p : Path) :
    (d.makeDirs p).1.root.Named := by
  refine Disk.makeDirsAlong_induction (R := fun d e => d.root.Named → e.root.Named) (fun _ => id)
    (fun h h' => h' ∘ h) (fun hmake hd => ?_) d _ h
  obtain ⟨x, n, hmakes⟩ := Disk.exists_makes hmake
  rw [hmakes.eq]
  exact hd.put (show Node.Named (.dir []) from trivial) hmakes.isName x

/-- A file that a search finds lies below its start by names. -/
theorem Disk.exists_way {d : Disk} {o : SearchOptions} {dir p : Path} {files : List Path}
    (h : d.root.Named) (hfiles : d.filesBelow o dir = .ok files) (hp : p ∈ files) :
    ∃ ms m, p = dir.joinAll (ms ++ [m]) ∧ (∀ n ∈ ms, n.IsName) ∧ m.IsName := by
  rw [filesBelow] at hfiles
  split at hfiles
  · split at hfiles
    · rename_i start _ es hes
      obtain rfl := Except.ok.inj hfiles
      obtain ⟨way, hway, rfl⟩ := List.mem_map.mp hp
      obtain ⟨n, y, rfl, hy⟩ := Node.NamedEntries.walk es [] (h.get? hes) hway
      obtain ⟨ms, m, hms⟩ := (List.eq_nil_or_concat' (n :: y)).resolve_left (List.cons_ne_nil n y)
      rw [hms] at hy
      refine ⟨ms, m, ?_, fun n hn => hy n (List.mem_append_left _ hn), hy m (by simp)⟩
      rw [← hms]
      rfl
    · cases hfiles
  · cases hfiles

end CleanCopy
