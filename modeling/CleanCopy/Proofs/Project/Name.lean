import CleanCopy.Project.Discovery

namespace CleanCopy

variable {t u content : Text} {p file : Path} {projects : Projects}

theorem Text.ne_nil_of_nonBlank? (h : t.nonBlank? = some u) : u ≠ [] := by
  rw [nonBlank?] at h
  split at h
  · cases h
  · rename_i hne
    rw [← Option.some.inj h]
    simpa using hne

theorem NameSearch.ne_nil_of_run {s : NameSearch} {es : List Xml.Event} (h : s.run es = some t) :
    t ≠ [] := by
  -- Only the end of an element gives a name; every other event goes on or gives up.
  fun_induction NameSearch.run s es
  all_goals first
    | exact Text.ne_nil_of_nonBlank? h
    | cases h
    | rename_i ih; exact ih h

namespace DescriptorKind

theorem ne_nil_of_declaredName? {k : DescriptorKind} (h : k.declaredName? content = some t) :
    t ≠ [] := by
  cases k with
  | csProject => exact NameSearch.ne_nil_of_run h
  | angularWorkspace =>
    rcases Option.or_eq_some_iff.mp ((Option.orElse_eq_or ..).symm.trans h) with h | ⟨-, h⟩
    all_goals
      obtain ⟨u, -, h⟩ := Option.bind_eq_some_iff.mp h
      exact Text.ne_nil_of_nonBlank? h
  | packageManifest =>
    obtain ⟨u, -, h⟩ := Option.bind_eq_some_iff.mp h
    exact Text.ne_nil_of_nonBlank? h

theorem fallbackName_ne_nil (k : DescriptorKind) (p : Path) : k.fallbackName p ≠ [] := by
  cases k
  all_goals
    unfold fallbackName
    dsimp only
    split
    · exact List.cons_ne_nil _ _
    · decide

end DescriptorKind

/-- No project is without a name, whatever its descriptor holds. -/
theorem Disk.projectName_ne_nil (d : Disk) (k : DescriptorKind) (p : Path) : d.projectName k p ≠ [] := by
  rw [projectName]
  split
  · cases h : k.declaredName? _ with
    | none => exact k.fallbackName_ne_nil p
    | some t => exact DescriptorKind.ne_nil_of_declaredName? h
  · exact k.fallbackName_ne_nil p

namespace Projects

theorem mem_insertInto {name : Text} {es : List (Path × Text)} {e : Path × Text}
    (h : e ∈ insertInto p name es) : e.2 = name ∨ e ∈ es := by
  induction es with
  | nil =>
    rw [List.mem_singleton.mp h]
    exact .inl rfl
  | cons e' es ih =>
    rw [insertInto] at h
    split at h
    · exact (List.mem_cons.mp h).imp (congrArg Prod.snd) id
    · rcases List.mem_cons.mp h with rfl | h
      · exact .inl rfl
      · exact .inr (List.mem_cons_of_mem _ h)
    · rcases List.mem_cons.mp h with rfl | h
      · exact .inr List.mem_cons_self
      · exact (ih h).imp id (List.mem_cons_of_mem _)

theorem mem_of_ownerOf? {es : List (Path × Text)} {depth : Nat} {name : Text}
    (h : ownerOf? file es = some (p, depth, name)) : (p, name) ∈ es := by
  induction es generalizing p depth name with
  | nil => cases h
  | cons e es ih =>
    obtain ⟨q, old⟩ := e
    rw [ownerOf?] at h
    split at h
    · exact List.mem_cons_of_mem _ (ih h)
    · cases h
      exact List.mem_cons_self
    · rename_i depth' q' n' hdepth hrest
      split at h
      · cases h
        exact List.mem_cons_of_mem _ (ih hrest)
      · cases h
        exact List.mem_cons_self

/-- No project is without a name. -/
def Named (projects : Projects) : Prop := ∀ e ∈ projects.entries, e.2 ≠ []

theorem Named.insert {name : Text} (h : projects.Named) (hn : name ≠ []) :
    (projects.insert p name).Named := by
  intro e he
  rcases mem_insertInto he with he | he
  · exact he ▸ hn
  · exact h e he

theorem Named.nameFor (h : projects.Named) (file : Path) : projects.nameFor file ≠ [] := by
  rw [Projects.nameFor, owner?]
  cases ho : ownerOf? file projects.entries with
  | none => decide
  | some best => exact h _ (mem_of_ownerOf? ho)

end Projects

theorem Disk.projectsOf_named (d : Disk) (ps : List Path) : (d.projectsOf ps).Named := by
  refine List.foldlRecOn (motive := Projects.Named) ps _ (fun _ h => absurd h List.not_mem_nil) ?_
  intro projects h p _
  split
  · exact h.insert (d.projectName_ne_nil _ p)
  · exact h

theorem Disk.projectsBelow_named {d : Disk} {dir : Path} (h : d.projectsBelow dir = .ok projects) :
    projects.Named := by
  rw [projectsBelow] at h
  cases hfiles : d.filesBelow {} dir with
  | error e =>
    rw [hfiles] at h
    cases h
  | ok files =>
    rw [hfiles] at h
    exact Except.ok.inj h ▸ d.projectsOf_named _

end CleanCopy
