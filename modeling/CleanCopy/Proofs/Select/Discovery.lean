import CleanCopy.Proofs.Files.Named
import CleanCopy.Proofs.Select.Search

namespace CleanCopy

open CleanCopy.Path

namespace Node

/-- A walk goes by the names of a tree. -/
theorem Named.isName_of_walk {root : Node} {admits : Place → Bool → Bool} {way : Place}
    (h : root.Named) (hway : way ∈ root.walk admits []) : ∀ n ∈ way, n.IsName := by
  obtain ⟨y, rfl, hy⟩ := Named.walk root [] h hway
  exact hy

end Node

namespace Disk

variable {d : Disk} {o : SearchOptions} {dir : Path} {start way : Place}

theorem filesBelow_of_not_dir (h : d.isDir dir = false) : d.filesBelow o dir =
    .error (.setup ("Source path is not a directory: ".toList ++ dir.text) none) := by
  rw [filesBelow]
  split
  · rename_i start hstart
    split
    · rename_i es hes
      rw [isDir, node, nodeFrom, show d.resolveFrom d.here dir = _ from hstart] at h
      simp only [hes] at h
      cases h
    · rfl
  · rfl

theorem isName_of_mem_waysBelow (h : d.root.Named) (hway : way ∈ d.waysBelow o start) :
    ∀ n ∈ way, n.IsName := by
  rw [waysBelow] at hway
  split at hway
  · rename_i node hnode
    exact (h.get? hnode).isName_of_walk hway
  · cases hway

/-- A search needs a directory to begin in. There it finds the regular files that are asked for and
lie in no directory to skip, in the order of their paths and none of them twice. The names that lead
to its beginning play no part, nor do links below it. -/
theorem filesBelow_exact (hordered : d.root.Ordered) (hnamed : d.root.Named) (skip : List Text)
    (dir : Path) (keep : Path → Bool) :
    (d.isDir dir = false → d.filesBelow { skip } dir =
      .error (.setup ("Source path is not a directory: ".toList ++ dir.text) none)) ∧
    (d.isDir dir = true → ∃ start files, d.resolve dir = .ok (.node start) ∧
      (d.filesBelow { skip } dir).map (·.filter keep) = .ok files ∧
      (∀ p, p ∈ files ↔ keep p = true ∧ ∃ way c, p = dir.joinAll way ∧
        d.root.get? (start ++ way) = some (.file c) ∧ ∀ f ∈ way.dropLast, f ∉ skip) ∧
      files.Pairwise fun p q => p.compare q = .lt) := by
  refine ⟨filesBelow_of_not_dir, fun hdir => ?_⟩
  obtain ⟨hne, start, hstart⟩ := isDir_iff.mp hdir
  refine ⟨start, ((d.waysBelow { skip } start).map dir.joinAll).filter keep, ?_, ?_, fun p => ?_, ?_⟩
  · rw [resolve, resolveFrom, List.isEmpty_eq_false_iff.mpr hne]
    exact hstart.resolve
  · rw [hstart.filesBelow hne]
    rfl
  · rw [List.mem_filter, List.mem_map, and_comm]
    refine and_congr_right fun _ => exists_congr fun way => ?_
    rw [mem_waysBelow hordered, admitted_iff rfl, look]
    simp only [Node.look_eq_file]
    constructor
    · rintro ⟨⟨⟨c, hc⟩, hskip⟩, rfl⟩
      exact ⟨c, rfl, hc, hskip⟩
    · rintro ⟨c, rfl, hc, hskip⟩
      exact ⟨⟨⟨c, hc⟩, hskip⟩, rfl⟩
  · exact (joinAll_pairwise (fun way hway => isName_of_mem_waysBelow hnamed hway)
      (waysBelow_pairwise hordered)).filter _

/-- A tree with links, with a directory that is to be skipped by its name and a file of that name, and
with a directory and a file whose names begin alike. -/
def linkedTree : Disk where
  root := .dir [("bin".toList, .dir [
    ("a".toList, .dir [
      ("bin".toList, .dir [("x.cs".toList, .file (Text.toBytes "x();".toList))]),
      ("y.cs".toList, .file (Text.toBytes "y();".toList))]),
    ("a.cs".toList, .file (Text.toBytes "z();".toList)),
    ("b".toList, .dir [("bin".toList, .file (Text.toBytes "1".toList))]),
    ("c".toList, .link "a".toList),
    ("d.cs".toList, .link "a.cs".toList)])]

theorem filesBelow_exact_among_links :
    let dir := ofString "bin"
    let files := [ofString "bin/a/y.cs", ofString "bin/a.cs", ofString "bin/b/bin"]
    linkedTree.root.Ordered ∧ linkedTree.root.Named ∧
      (linkedTree.filesBelow { skip := ["bin".toList] } dir).map (·.filter fun _ => true) =
        .ok files ∧
      (∀ p ∈ files, ∃ way c, p = dir.joinAll way ∧
        linkedTree.root.get? ("bin".toList :: way) = some (.file c) ∧
        ∀ f ∈ way.dropLast, f ∉ ["bin".toList]) ∧
      files.Pairwise fun p q => p.compare q = .lt := by
  intro dir files
  have hordered : linkedTree.root.Ordered := by decide
  have hnamed : linkedTree.root.Named := by decide
  obtain ⟨start, found, hstart, hfound, hmem, hpair⟩ :=
    (filesBelow_exact hordered hnamed ["bin".toList] dir fun _ => true).2 (by decide +kernel)
  have hfiles : (linkedTree.filesBelow { skip := ["bin".toList] } dir).map (·.filter fun _ => true) =
      .ok files := by decide +kernel
  have hplace : linkedTree.resolve dir = .ok (.node ["bin".toList]) := by decide +kernel
  obtain rfl := Except.ok.inj (hfound.symm.trans hfiles)
  obtain rfl := Target.node.inj (Except.ok.inj (hstart.symm.trans hplace))
  exact ⟨hordered, hnamed, hfiles, fun p hp => ((hmem p).mp hp).2, hpair⟩

end Disk

end CleanCopy
