import CleanCopy.Proofs.Files.Extends
import CleanCopy.Proofs.Files.Read

namespace CleanCopy

open CleanCopy.Path

namespace Disk

variable {d e : Disk} {p : Path} {b x y : Place} {n : Text}

section leaf
variable (ht : d.Tidy) (hx : d.look x = some none) (hfree : d.look (x ++ [n]) ≠ some none)
include ht hx hfree

theorem Tidy.look_withNode (new : Node) (hnew : new.entries = []) :
    (d.withNode (x ++ [n]) new).look y = if y = x ++ [n] then some new.shape else d.look y := by
  obtain ⟨es, hes⟩ := ht.root.look_eq_dir.mp hx
  refine Node.look_put hes hnew fun old hold => ?_
  have hget : d.root.get? (x ++ [n]) = some old := by
    rw [Node.get?_concat, hes]
    exact hold
  cases old with
  | file c => rfl
  | link t => rfl
  | dir es' => exact absurd (by rw [look, Node.look, hget]; rfl) hfree

/-- A directory is made in a free place; a file may replace another. -/
theorem Tidy.becomes_withNode (new : Node) (hn : n.IsName) (hnew : new.entries = []) (htidy : new.Tidy)
    (hdir : new.shape = none → d.look (x ++ [n]) = none) :
    d.Becomes (new.shape.toList.map fun c => (x ++ [n], c)) (d.withNode (x ++ [n]) new) := by
  have hlook (y : Place) := ht.look_withNode (y := y) hx hfree new hnew
  obtain ⟨es, hes⟩ := ht.root.look_eq_dir.mp hx
  refine ⟨rfl, fun h => ?_, fun y hy => ?_, fun y c => ?_⟩
  · refine h.put htidy fun m hm => ?_
    rcases List.mem_append.mp hm with hm | hm
    · exact (h.get? hes).2 m hm
    · rwa [List.mem_singleton.mp hm]
  · rw [hlook, if_neg (by rintro rfl; exact hfree hy)]
    exact hy
  · rw [hlook]
    cases hs : new.shape with
    | none =>
      have hnone := hdir hs
      by_cases hy : y = x ++ [n] <;> simp [lastWrite, hy, hnone]
    | some c' =>
      by_cases hy : y = x ++ [n]
      · simp [lastWrite, hy]
      · simp [lastWrite, hy, Ne.symm hy]

end leaf

theorem Tidy.becomes_newFile (ht : d.Tidy) (hx : d.look x = some none)
    (hfree : d.look (x ++ [n]) ≠ some none) (hn : n.IsName) (c : ByteArray) :
    d.Becomes [(x ++ [n], c)] (d.withNode (x ++ [n]) (.file c)) :=
  ht.becomes_withNode hx hfree (.file c) hn rfl trivial fun h => absurd h (Option.some_ne_none c)

/-- The directories up to a place have been made, and no others. -/
structure MakesWay (d : Disk) (x : Place) (e : Disk) : Prop where
  becomes : d.Becomes [] e
  dir : e.look x = some none
  new : ∀ y, e.look y = some none → d.look y = some none ∨ y <+: x

theorem Tidy.makesWay_newDir (ht : d.Tidy) (hx : d.look x = some none)
    (hfree : d.look (x ++ [n]) = none) (hn : n.IsName) :
    d.MakesWay (x ++ [n]) (d.withNode (x ++ [n]) (.dir [])) := by
  have hne : d.look (x ++ [n]) ≠ some none := by
    rw [hfree]
    exact (Option.some_ne_none _).symm
  have hlook (y : Place) := ht.look_withNode (y := y) hx hne (.dir []) rfl
  refine ⟨ht.becomes_withNode hx hne (.dir []) hn rfl trivial fun _ => hfree, ?_, fun y hy => ?_⟩
  · rw [hlook, if_pos rfl]
    rfl
  · rw [hlook] at hy
    split at hy
    · rename_i heq
      rw [heq]
      exact .inr List.prefix_rfl
    · exact .inl hy

theorem MakesWay.concat {f : Disk} (h : d.MakesWay x e) (h' : e.MakesWay (x ++ [n]) f) :
    d.MakesWay (x ++ [n]) f where
  becomes := h.becomes.trans h'.becomes
  dir := h'.dir
  new y hy := (h'.new y hy).elim
    (fun hy => (h.new y hy).imp_right fun hpre => hpre.trans (List.prefix_append _ _)) .inr

/-- A free place stays free while the way to its directory is made. -/
theorem MakesWay.free (h : d.MakesWay x e) (hfree : d.look (x ++ [n]) = none) :
    e.look (x ++ [n]) = none := by
  match he : e.look (x ++ [n]) with
  | none => rfl
  | some none =>
    rcases h.new _ he with hold | hpre
    · cases hold.symm.trans hfree
    · exact absurd hpre.length_le (by simp)
  | some (some c) =>
    rw [h.becomes.file_of_none rfl, hfree] at he
    cases he

theorem Tidy.dirAroundFrom_eq_ok (ht : d.Tidy) {dir : Place} :
    d.dirAroundFrom dir p = .ok x ↔
      d.root.follow dir p.bare.steps.dropLast = .target (.node x) ∧ d.look x = some none := by
  rw [Disk.dirAroundFrom_eq_ok, ht.resolve_eq_ok, ht.sight_eq_dir]

/-- A directory that has been made is new, and nothing else is. -/
theorem Tidy.makeDir_ok (ht : d.Tidy) (h : d.makeDir p = .ok e) : d.Becomes [] e := by
  obtain ⟨x, n, hmakes⟩ := exists_makes h
  have hfree : d.look (x ++ [n]) = none := by rw [look, Node.look_eq_sight, hmakes.free]; rfl
  rw [hmakes.eq]
  exact (ht.makesWay_newDir (ht.sight_eq_dir.mp hmakes.dir) hfree hmakes.isName).becomes

/-- A directory is not made twice. -/
theorem Enters.makeDir (h : d.Enters p b) (ht : d.Tidy) (hp : p.text ≠ []) :
    d.makeDir p = .error .present := by
  rw [Disk.makeDir, if_neg (by simpa using hp)]
  split
  · rfl
  · rename_i hbare
    have hbare : p.bare.text ≠ [] := fun hnil => hbare (List.isEmpty_iff.mpr hnil)
    obtain ⟨hs, hsteps, hh⟩ := steps_bare hbare
    have hf := h.follow
    rw [hsteps, ht.follow_append_idle h.dir hh] at hf
    obtain ⟨steps, last, heq⟩ := (List.eq_nil_or_concat' p.bare.steps).resolve_left (steps_ne_nil _)
    rw [heq] at hf
    obtain ⟨y, hy⟩ := Node.exists_follow_of_append hf (List.cons_ne_nil _ _)
    rw [Node.follow_append_of_node hy] at hf
    have haround : d.dirAround p = .ok y := by
      refine ht.dirAroundFrom_eq_ok.mpr ⟨?_, Node.look_of_follow hf⟩
      rw [heq, List.dropLast_concat]
      exact hy
    rw [haround, heq, List.getLast?_concat]
    cases last with
    | name n =>
      obtain ⟨rfl, hne⟩ := Node.look_of_follow_names ht.root (List.cons_ne_nil n []) hf
      have hsome : (d.root.get? (y ++ [n])).isSome = true :=
        Option.isSome_iff_ne_none.mpr fun hnone => hne (Node.look_eq_none.mpr hnone)
      simp only [hsome, if_true]
    | root => rfl
    | here => rfl
    | up => rfl

end Disk

end CleanCopy
