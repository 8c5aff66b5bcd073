import CleanCopy.Proofs.Files.Becomes
import CleanCopy.Proofs.Files.Links

namespace CleanCopy

open CleanCopy.Path

namespace Disk

variable {d e : Disk} {ws : Writes} {p : Path} {b : Place} {n : Text} {ns : List Text}

/-- A path that leads to a directory. The empty one, which cannot be opened, leads to where relative
paths begin. -/
structure Enters (d : Disk) (p : Path) (b : Place) : Prop where
  follow : d.root.follow d.here p.steps = .target (.node b)
  dir : d.look b = some none

theorem Becomes.enters (h : d.Becomes ws e) (ht : d.Tidy) (hp : d.Enters p b) : e.Enters p b where
  follow := by
    rw [h.here]
    exact h.follow ht hp.follow
  dir := h.dir b hp.dir

theorem Enters.ne_nil (h : d.Enters p b) (hl : d.look (b ++ ns) ≠ some none) : ns ≠ [] := by
  rintro rfl
  exact hl (by rw [List.append_nil, h.dir])

theorem Tidy.sight_eq_dir (ht : d.Tidy) : d.root.sight b = some (.dir []) ↔ d.look b = some none :=
  Node.sight_eq_dir.trans ht.root.look_eq_dir.symm

theorem Tidy.resolve_eq_ok (ht : d.Tidy) {x : Place} {steps : List Component} {t : Target} :
    d.root.resolve maxLinks x steps = .ok t ↔ d.root.follow x steps = .target t :=
  ⟨Node.follow_of_resolve ht.root, fun h => Node.resolve_of_target h _⟩

theorem Tidy.reaches_iff (ht : d.Tidy) : d.Reaches p b ↔ d.Enters p b :=
  ⟨fun h => ⟨ht.resolve_eq_ok.mp h.resolve, ht.sight_eq_dir.mp h.dir⟩,
    fun h => ⟨ht.resolve_eq_ok.mpr h.follow, ht.sight_eq_dir.mpr h.dir⟩⟩

theorem Enters.reaches (h : d.Enters p b) (ht : d.Tidy) : d.Reaches p b := ht.reaches_iff.mpr h

theorem Tidy.follow_append_idle (ht : d.Tidy) (hb : d.look b = some none) {x : Place}
    {steps hs : List Component} (hh : ∀ h ∈ hs, h = .here) :
    d.root.follow x (steps ++ hs) = .target (.node b) ↔
      d.root.follow x steps = .target (.node b) := by
  rw [← ht.resolve_eq_ok, ← ht.resolve_eq_ok]
  exact Node.resolve_append_idle hh (ht.sight_eq_dir.mpr hb)

theorem Enters.approach (h : d.Enters p b) (ht : d.Tidy) :
    d.root.follow d.here p.approach = .target (.node b) :=
  ht.resolve_eq_ok.mp (h.reaches ht).approach

theorem Enters.follow_joinAll (h : d.Enters p b) (ht : d.Tidy) (hn : ∀ n ∈ ns, n.IsName) :
    d.root.follow d.here (p.joinAll ns).steps = d.root.follow b (ns.map .name) := by
  rcases List.eq_nil_or_concat' ns with rfl | ⟨ms, m, rfl⟩
  · exact h.follow
  · rw [joinAll_concat, steps_join (hn m (by simp)),
      approach_joinAll fun n hm => hn n (List.mem_append_left _ hm), List.append_assoc,
      Node.follow_append_of_node (h.approach ht), List.map_append]
    rfl

/-- The steps before a name joined to a path stay in its directory. -/
theorem Enters.follow_approach (h : d.Enters p b) (ht : d.Tidy) (hn : ∀ n ∈ ns, n.IsName) :
    d.root.follow d.here (p.joinAll ns).approach = d.root.follow b (ns.map .name) := by
  rw [approach_joinAll hn, Node.follow_append_of_node (h.approach ht)]

theorem Enters.join_here (h : d.Enters p b) (ht : d.Tidy) {s : Text} (hs : s = [] ∨ s = ['.']) :
    d.Enters (p.join ⟨s⟩) b := ht.reaches_iff.mp ((h.reaches ht).join_here hs)

/-- A stretch that is no name keeps a path in a directory. -/
theorem Enters.join_of_not_name (h : d.Enters p b) (ht : d.Tidy) {s : Text} (hslash : '/' ∉ s)
    (hs : ¬ s.IsName) : ∃ b', d.Enters (p.join ⟨s⟩) b' := by
  obtain ⟨b', hb⟩ := (h.reaches ht).join_of_not_name hslash hs
  exact ⟨b', ht.reaches_iff.mp hb⟩

end Disk

end CleanCopy
