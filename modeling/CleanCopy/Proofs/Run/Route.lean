import CleanCopy.Project.Layout
import CleanCopy.Proofs.Files.Write

namespace CleanCopy

open CleanCopy.Path

/-- The name that the copy of a file takes from the file's. -/
def copyOf (n : Text) : Text := stemOf n ++ '.' :: copyExtension

theorem isCopy_concat (y : Place) (s : Text) : Place.IsCopy (y ++ [s ++ '.' :: copyExtension]) :=
  ⟨y, _, rfl, s, rfl⟩

theorem isName_copy {s : Text} (hs : '/' ∉ s) : Text.IsName (s ++ '.' :: copyExtension) := by
  have hlast : (s ++ '.' :: copyExtension).getLast? = some 't' := by
    rw [List.getLast?_append_of_ne_nil _ (List.cons_ne_nil _ _)]
    rfl
  refine ⟨by simp, ?_, ?_, ?_⟩
  · intro h
    rcases List.mem_append.mp h with h | h
    · exact hs h
    · revert h
      decide
  · intro h
    rw [h] at hlast
    revert hlast
    decide
  · intro h
    rw [h] at hlast
    revert hlast
    decide

theorem cutLast?_append {sep : Char} {t a b : Text} (h : t.cutLast? sep = some (a, b)) :
    a ++ sep :: b = t := by
  induction t generalizing a b with
  | nil => cases h
  | cons c cs ih =>
    rw [Text.cutLast?] at h
    split at h
    · rename_i a' b' hcs
      obtain ⟨rfl, rfl⟩ := Prod.mk.inj (Option.some.inj h)
      rw [List.cons_append, ih hcs]
    · split at h
      · rename_i hc
        obtain ⟨rfl, rfl⟩ := Prod.mk.inj (Option.some.inj h)
        rw [hc]
        rfl
      · cases h

theorem stemOf_isPrefix (n : Text) : stemOf n <+: n := by
  rw [stemOf]
  split
  · exact List.prefix_rfl
  · exact List.prefix_rfl
  · rename_i stem ext _ hcut
    exact ⟨'.' :: ext, cutLast?_append hcut⟩

theorem isName_copyOf {n : Text} (h : n.IsName) : (copyOf n).IsName :=
  isName_copy fun hs => h.no_slash ((stemOf_isPrefix n).subset hs)

theorem copyName_join {p : Path} {n : Text} (h : n.IsName) : copyName (p.join ⟨n⟩) = copyOf n := by
  rw [copyName, fileName?_join h, Option.getD_some, ← nil_join h.no_slash,
    withExtension_join h (isName_copyOf h)]
  exact congrArg text (nil_join (isName_copyOf h).no_slash)

theorem notMem_sanitize (t : Text) : '/' ∉ sanitize t := by
  intro h
  obtain ⟨c, -, hc⟩ := List.mem_map.mp h
  split at hc
  · cases hc
  · rename_i hne
    simp [hc] at hne

namespace Layout

variable {source dest : Path} {way : Place}

theorem relative_joinAll (h : ∀ n ∈ way, n.IsName) :
    relative (source.joinAll way) source = joinAll ⟨[]⟩ way := by
  have hcomp : (joinAll ⟨[]⟩ way).components = way.map .name := components_joinAll h
  have hup : (joinAll ⟨[]⟩ way).components.head? ≠ some .up := by
    rw [hcomp]
    cases way <;> simp
  rw [relative, relativeTo?_joinAll h]
  simp only [hup, if_false]

theorem destination_structured {ms : List Text} {m : Text} (hms : ∀ n ∈ ms, n.IsName) (hm : m.IsName)
    (projects : Projects) :
    destination .structured projects source dest (source.joinAll (ms ++ [m])) =
      (dest.joinAll ms).join ⟨copyOf m⟩ := by
  have hway := isName_concat hms hm
  rw [destination, relative_joinAll hway, join_joinAll hway (by simp), joinAll_concat]
  exact withExtension_join hm (isName_copyOf hm)

/-- The path to a copy: names joined to the destination, the last of them with the extension of
copies. Only a project that is named by points, or by nothing, has no directory of its own. -/
theorem destination_form {ms : List Text} {m : Text} (hms : ∀ n ∈ ms, n.IsName) (hm : m.IsName)
    (l : Layout) (projects : Projects) (source dest : Path) :
    let file := source.joinAll (ms ++ [m])
    let project := sanitize (projects.nameFor file)
    (l = .flat → project.IsName) ∧ (∃ ns s, (∀ n ∈ ns, n.IsName) ∧ '/' ∉ s ∧
        l.destination projects source dest file = (dest.joinAll ns).join ⟨s ++ '.' :: copyExtension⟩) ∨
      l = .flat ∧ ¬ project.IsName ∧
        l.destination projects source dest file = (dest.join ⟨project⟩).join ⟨copyOf m⟩ := by
  intro file project
  have hstem : '/' ∉ stemOf m := fun hs => hm.no_slash ((stemOf_isPrefix m).subset hs)
  have hname : copyName file = copyOf m := by
    rw [show file = (source.joinAll ms).join ⟨m⟩ from joinAll_concat ..]
    exact copyName_join hm
  cases l with
  | structured =>
    exact .inl ⟨nofun, ms, stemOf m, hms, hstem, destination_structured hms hm projects⟩
  | flat =>
    have hdest : destination .flat projects source dest file =
        (dest.join ⟨project⟩).join ⟨copyOf m⟩ := by rw [destination, hname]
    by_cases hp : project.IsName
    · exact .inl ⟨fun _ => hp, [project], stemOf m, List.forall_mem_singleton.mpr hp, hstem, hdest⟩
    · exact .inr ⟨rfl, hp, hdest⟩
  | superFlat =>
    refine .inl ⟨nofun, [], project ++ '.' :: stemOf m, fun _ h => absurd h List.not_mem_nil, ?_, ?_⟩
    · intro hs
      rcases List.mem_append.mp hs with hs | hs
      · exact notMem_sanitize _ hs
      · exact (List.mem_cons.mp hs).elim (by decide) hstem
    · rw [destination, hname, copyOf, List.append_assoc]
      rfl

/-- Every copy has its place below a directory that the destination's path enters, and the names
of all copies end alike. -/
theorem destination_lands {d : Disk} {b : Place} {ms : List Text} {m : Text} (ht : d.Tidy)
    (hd : d.Enters dest b) (hms : ∀ n ∈ ms, n.IsName) (hm : m.IsName) (l : Layout)
    (projects : Projects) : ∃ x : Place,
      d.Lands (l.destination projects source dest (source.joinAll (ms ++ [m]))) x ∧ x.IsCopy := by
  rcases destination_form hms hm l projects source dest with
    ⟨-, ns, s, hns, hs, hdest⟩ | ⟨-, hp, hdest⟩
  · rw [hdest]
    exact ⟨_, .below hd hns (isName_copy hs), isCopy_concat _ _⟩
  · rw [hdest]
    obtain ⟨b', hb⟩ := hd.join_of_not_name ht (notMem_sanitize _) hp
    exact ⟨_, hb.lands_join (isName_copyOf hm), isCopy_concat _ _⟩

end Layout

end CleanCopy
