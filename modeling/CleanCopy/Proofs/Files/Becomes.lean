import CleanCopy.Proofs.Files.Follow

namespace CleanCopy

/-- Files that have been written, in order: their places and bytes. -/
abbrev Writes := List (Place × ByteArray)

/-- The bytes that were written to a place last. -/
def lastWrite (x : Place) : Writes → Option ByteArray
  | [] => none
  | w :: ws => (lastWrite x ws).or (if w.1 = x then some w.2 else none)

theorem lastWrite_append (x : Place) (vs ws : Writes) :
    lastWrite x (vs ++ ws) = (lastWrite x ws).or (lastWrite x vs) := by
  induction vs with
  | nil => exact (Option.or_none).symm
  | cons v vs ih => rw [List.cons_append, lastWrite, lastWrite, ih, Option.or_assoc]

theorem exists_lastWrite {ws : Writes} {w : Place × ByteArray} (h : w ∈ ws) :
    ∃ c, lastWrite w.1 ws = some c := by
  induction ws with
  | nil => cases h
  | cons v ws ih =>
    rw [lastWrite]
    cases hw : lastWrite w.1 ws with
    | some c => exact ⟨c, rfl⟩
    | none =>
      rcases List.mem_cons.mp h with rfl | h
      · exact ⟨w.2, by rw [if_pos rfl]; rfl⟩
      · obtain ⟨c, hc⟩ := ih h
        cases hc.symm.trans hw

theorem exists_mem_of_lastWrite {x : Place} {ws : Writes} {c : ByteArray}
    (h : lastWrite x ws = some c) : (x, c) ∈ ws := by
  induction ws with
  | nil => cases h
  | cons w ws ih =>
    rw [lastWrite, Option.or_eq_some_iff] at h
    rcases h with h | ⟨-, h⟩
    · exact List.mem_cons_of_mem _ (ih h)
    · split at h
      · rename_i hx
        rw [← hx, ← Option.some.inj h]
        exact List.mem_cons_self
      · cases h

/-- A place whose name ends as the names of copies do. -/
def Place.IsCopy (x : Place) : Prop := ∃ y n, x = y ++ [n] ∧ ".txt".toList <:+ n

theorem Place.isCopy_concat_iff {y : Place} {n : Text} :
    Place.IsCopy (y ++ [n]) ↔ ".txt".toList <:+ n := by
  constructor
  · rintro ⟨z, m, heq, hm⟩
    obtain ⟨-, rfl⟩ := List.append_inj' heq rfl |>.imp id (List.singleton_inj.mp)
    exact hm
  · exact fun hn => ⟨y, n, rfl, hn⟩

/-- Nothing but copies has been written. -/
def AreCopies (ws : Writes) : Prop := ∀ w ∈ ws, w.1.IsCopy

theorem areCopies_nil : AreCopies [] := fun _ h => absurd h List.not_mem_nil

theorem AreCopies.append {vs ws : Writes} (hv : AreCopies vs) (hw : AreCopies ws) :
    AreCopies (vs ++ ws) := fun w h => (List.mem_append.mp h).elim (hv w) (hw w)

theorem lastWrite_of_not_isCopy {x : Place} {ws : Writes} (hws : AreCopies ws)
    (hx : ¬ x.IsCopy) : lastWrite x ws = none := by
  by_contra h
  obtain ⟨c, hc⟩ := Option.ne_none_iff_exists'.mp h
  exact hx (hws _ (exists_mem_of_lastWrite hc))

namespace Disk

/-- What stands at a place. -/
def look (d : Disk) (x : Place) : Option (Option ByteArray) := d.root.look x

/-- A disk without links whose relative paths begin in a directory. -/
structure Tidy (d : Disk) : Prop where
  root : d.root.Tidy
  here : d.look d.here = some none

theorem tidy_iff {d : Disk} : d.Tidy ↔ d.root.Tidy ∧ d.look d.here = some none :=
  ⟨fun h => ⟨h.root, h.here⟩, fun h => ⟨h.1, h.2⟩⟩

instance (d : Disk) : Decidable d.Tidy :=
  haveI := ByteArray.instDecidableEq
  decidable_of_iff _ tidy_iff.symm

/-- What a disk can become when nothing is removed: its directories stay, and its files are the old
ones with what has been written since. -/
structure Becomes (d : Disk) (ws : Writes) (e : Disk) : Prop where
  here : e.here = d.here
  tidy : d.root.Tidy → e.root.Tidy
  dir : ∀ x, d.look x = some none → e.look x = some none
  file : ∀ x c, e.look x = some (some c) ↔
    lastWrite x ws = some c ∨ lastWrite x ws = none ∧ d.look x = some (some c)

namespace Becomes

variable {d e f : Disk} {vs ws : Writes} {x : Place}

theorem refl (d : Disk) : d.Becomes [] d where
  here := rfl
  tidy := id
  dir _ h := h
  file x c := by simp [lastWrite]

theorem trans (h : d.Becomes vs e) (h' : e.Becomes ws f) : d.Becomes (vs ++ ws) f where
  here := h'.here.trans h.here
  tidy ht := h'.tidy (h.tidy ht)
  dir x hx := h'.dir x (h.dir x hx)
  file x c := by
    rw [h'.file, h.file, lastWrite_append]
    cases lastWrite x ws <;> simp

theorem isTidy (h : d.Becomes ws e) (ht : d.Tidy) : e.Tidy where
  root := h.tidy ht.root
  here := by
    rw [h.here]
    exact h.dir _ ht.here

theorem file_of_none {c : ByteArray} (h : d.Becomes ws e) (hx : lastWrite x ws = none) :
    e.look x = some (some c) ↔ d.look x = some (some c) := by
  simp [h.file, hx]

/-- What is named otherwise than copies are stays as it is. -/
theorem file_of_not_isCopy {c : ByteArray} (h : d.Becomes ws e) (hws : AreCopies ws)
    (hx : ¬ x.IsCopy) : e.look x = some (some c) ↔ d.look x = some (some c) :=
  h.file_of_none (lastWrite_of_not_isCopy hws hx)

/-- A file stays a file. -/
theorem exists_file {c : ByteArray} (h : d.Becomes ws e) (hx : d.look x = some (some c)) :
    ∃ c', e.look x = some (some c') := by
  cases hw : lastWrite x ws with
  | none => exact ⟨c, (h.file_of_none hw).mpr hx⟩
  | some c' => exact ⟨c', (h.file x c').mpr (.inl hw)⟩

theorem look_ne_none (h : d.Becomes ws e) (hx : d.look x ≠ none) : e.look x ≠ none := by
  match hv : d.look x with
  | none => exact absurd hv hx
  | some none => rw [h.dir x hv]; exact Option.some_ne_none _
  | some (some c) =>
    obtain ⟨c', hc⟩ := h.exists_file hv
    rw [hc]
    exact Option.some_ne_none _

theorem follow (h : d.Becomes ws e) (ht : d.Tidy) {y : Place} {steps : List Component}
    (hf : d.root.follow x steps = .target (.node y)) : e.root.follow x steps = .target (.node y) :=
  Node.follow_mono ht.root (h.tidy ht.root) h.dir (fun _ => h.look_ne_none) hf

end Becomes

end Disk

end CleanCopy
