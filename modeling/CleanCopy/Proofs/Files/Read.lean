import CleanCopy.Proofs.Files.Enter

namespace CleanCopy.Disk

open CleanCopy.Path

variable {d e : Disk} {ws : Writes} {p : Path} {b dir x : Place} {n : Text} {ns : List Text}
  {c : ByteArray}

theorem resolveFrom_of_target (hp : p.text ≠ []) {t : Target}
    (h : d.root.follow dir p.steps = .target t) : d.resolveFrom dir p = .ok t := by
  rw [resolveFrom, List.isEmpty_eq_false_iff.mpr hp]
  exact Node.resolve_of_target h maxLinks

theorem resolveFrom_of_failed (hp : p.text ≠ []) {err : FileError}
    (h : d.root.follow dir p.steps = .failed err) : d.resolveFrom dir p = .error err := by
  rw [resolveFrom, List.isEmpty_eq_false_iff.mpr hp]
  exact Node.resolve_of_failed h maxLinks

/-- A path can be opened exactly when its steps lead to a node. -/
theorem Tidy.nodeFrom_eq_ok (ht : d.Tidy) {node : Node} :
    d.nodeFrom dir p = .ok node ↔ p.text ≠ [] ∧
      ∃ y, d.root.follow dir p.steps = .target (.node y) ∧ d.root.get? y = some node := by
  simp only [Disk.nodeFrom_eq_ok, ht.resolve_eq_ok]

theorem Tidy.bytesFrom_eq_ok (ht : d.Tidy) :
    d.bytesFrom dir p = .ok c ↔ p.text ≠ [] ∧
      ∃ y, d.root.follow dir p.steps = .target (.node y) ∧ d.look y = some (some c) := by
  constructor
  · intro h
    rw [bytesFrom] at h
    split at h
    · rename_i content hc
      obtain ⟨hp, y, hy, hnode⟩ := ht.nodeFrom_eq_ok.mp hc
      exact ⟨hp, y, hy, Node.look_eq_file.mpr (by rw [hnode, Except.ok.inj h])⟩
    · cases h
    · cases h
  · rintro ⟨hp, y, hy, hc⟩
    rw [bytesFrom, ht.nodeFrom_eq_ok.mpr ⟨hp, y, hy, Node.look_eq_file.mp hc⟩]

theorem Tidy.isDir_iff (ht : d.Tidy) : d.isDir p = true ↔ p.text ≠ [] ∧ ∃ b, d.Enters p b := by
  simp only [Disk.isDir_iff, ht.reaches_iff]

theorem Tidy.holds_iff (ht : d.Tidy) :
    d.holds p = true ↔ p.text ≠ [] ∧
      ∃ y, d.root.follow d.here p.steps = .target (.node y) ∧ d.look y ≠ none := by
  constructor
  · intro h
    rw [holds, node] at h
    cases hn : d.nodeFrom d.here p with
    | error err => rw [hn] at h; cases h
    | ok m =>
      obtain ⟨hp, y, hy, hnode⟩ := ht.nodeFrom_eq_ok.mp hn
      refine ⟨hp, y, hy, ?_⟩
      rw [look, ne_eq, Node.look_eq_none, hnode]
      exact Option.some_ne_none m
  · rintro ⟨hp, y, hy, hne⟩
    obtain ⟨v, hv⟩ := Option.ne_none_iff_exists'.mp hne
    obtain ⟨m, hm, -⟩ := Option.map_eq_some_iff.mp hv
    rw [holds, node, ht.nodeFrom_eq_ok.mpr ⟨hp, y, hy, hm⟩]
    rfl

/-- A path to a regular file that is named otherwise than copies are. -/
def IsSource (d : Disk) (p : Path) : Prop :=
  p.text ≠ [] ∧ ∃ y, d.root.follow d.here p.steps = .target (.node y) ∧ ¬ y.IsCopy ∧
    ∃ c, d.look y = some (some c)

section copies
variable (h : d.Becomes ws e) (hws : AreCopies ws) (ht : d.Tidy) (hp : d.IsSource p)
include h hws ht hp

theorem Becomes.isSource : e.IsSource p := by
  obtain ⟨hp, y, hy, hcopy, c, hc⟩ := hp
  refine ⟨hp, y, ?_, hcopy, c, (h.file_of_not_isCopy hws hcopy).mpr hc⟩
  rw [h.here]
  exact h.follow ht hy

/-- Copies leave the sources as they are. -/
theorem Becomes.textOf : e.textOf p = d.textOf p := by
  obtain ⟨hp, y, hy, hcopy, c, hc⟩ := hp
  have hd : d.bytesFrom d.here p = .ok c := ht.bytesFrom_eq_ok.mpr ⟨hp, y, hy, hc⟩
  have he : e.bytesFrom e.here p = .ok c := by
    refine (h.isTidy ht).bytesFrom_eq_ok.mpr ⟨hp, y, ?_, (h.file_of_not_isCopy hws hcopy).mpr hc⟩
    rw [h.here]
    exact h.follow ht hy
  rw [Disk.textOf, Disk.textOf, hd, he]

end copies

theorem joinAll_text_ne_nil (hne : ns ≠ []) (hn : ∀ n ∈ ns, n.IsName) : (p.joinAll ns).text ≠ [] := by
  obtain ⟨ms, m, rfl⟩ := (List.eq_nil_or_concat' ns).resolve_left hne
  rw [joinAll_concat]
  exact join_ne_nil (hn m (by simp))

/-- A file below a directory is read without a link in the way. -/
theorem Reaches.textOf_joinAll (h : d.Reaches p b) (hn : ∀ n ∈ ns, n.IsName) (hne : ns ≠ [])
    (hc : d.root.look (b ++ ns) = some (some c)) :
    d.textOf (p.joinAll ns) =
      match Text.ofBytes? c with
      | some t => .ok t
      | none => .error .notText := by
  have hget := Node.look_eq_file.mp hc
  have hfollow := Node.follow_of_sight_file (Node.sight_eq_file.mpr hget)
  have hnode : d.nodeFrom d.here (p.joinAll ns) = .ok (.file c) := by
    refine nodeFrom_eq_ok.mpr ⟨joinAll_text_ne_nil hne hn, b ++ ns, ?_, hget⟩
    rw [steps_joinAll hn hne, approach_joinAll hn]
    exact Node.resolve_append h.approach hfollow
  rewrite [textOf, bytesFrom, hnode]
  rfl

section below
variable (h : d.Enters p b) (ht : d.Tidy) (hn : ∀ n ∈ ns, n.IsName) (hne : ns ≠ [])
include h ht hn hne

theorem Enters.resolve_joinAll {v : Option ByteArray} (hv : d.look (b ++ ns) = some v) :
    d.resolve (p.joinAll ns) = .ok (.node (b ++ ns)) := by
  refine resolveFrom_of_target (joinAll_text_ne_nil hne hn) ?_
  rw [h.follow_joinAll ht hn]
  exact Node.follow_names ht.root hv

theorem Enters.bytes_joinAll :
    d.bytesFrom d.here (p.joinAll ns) = .ok c ↔ d.look (b ++ ns) = some (some c) := by
  rw [ht.bytesFrom_eq_ok, h.follow_joinAll ht hn]
  constructor
  · rintro ⟨-, y, hy, hc⟩
    rwa [← (Node.look_of_follow_names ht.root hne hy).1]
  · exact fun hc => ⟨joinAll_text_ne_nil hne hn, _, Node.follow_names ht.root hc, hc⟩

theorem Enters.holds_joinAll : d.holds (p.joinAll ns) = true ↔ d.look (b ++ ns) ≠ none := by
  rw [ht.holds_iff, h.follow_joinAll ht hn]
  constructor
  · rintro ⟨-, y, hy, hc⟩
    rwa [← (Node.look_of_follow_names ht.root hne hy).1]
  · intro hc
    obtain ⟨v, hv⟩ := Option.ne_none_iff_exists'.mp hc
    exact ⟨joinAll_text_ne_nil hne hn, _, Node.follow_names ht.root hv, hc⟩

theorem Enters.isDir_joinAll : d.isDir (p.joinAll ns) = true ↔ d.look (b ++ ns) = some none := by
  rw [ht.isDir_iff]
  constructor
  · rintro ⟨-, y, hy, hdir⟩
    rw [h.follow_joinAll ht hn] at hy
    rwa [← (Node.look_of_follow_names ht.root hne hy).1]
  · intro hdir
    refine ⟨joinAll_text_ne_nil hne hn, b ++ ns, ?_, hdir⟩
    rw [h.follow_joinAll ht hn]
    exact Node.follow_names ht.root hdir

end below

end CleanCopy.Disk
