import CleanCopy.Proofs.Select.Rules
import CleanCopy.Proofs.Select.Search
import CleanCopy.Proofs.Text.Lists
import CleanCopy.Run.Convert

namespace CleanCopy

open CleanCopy.Path

variable {d e : Disk} {ws : Writes} {o : SearchOptions} {p dir : Path} {start way : Place} {n : Text}

theorem getLast?_asciiLower (t : Text) : t.asciiLower.getLast? = t.getLast?.map Char.toLower :=
  List.getLast?_map ..

theorem getLast?_of_copy (h : ".txt".toList <:+ n) :
    n.getLast? = some 't' ∧ n.asciiLower.getLast? = some 't' := by
  have hlast : n.getLast? = some 't' := List.getLast?_of_suffix h (by decide)
  rw [getLast?_asciiLower, hlast]
  exact ⟨rfl, by decide⟩

theorem Kind.getLast?_suffixes (k : Kind) :
    ∀ s ∈ k.suffixes, s.toList ≠ [] ∧ s.toList.getLast? ≠ some 't' := by
  cases k <;> decide

/-- No kind takes a copy. -/
theorem Kind.not_handles (k : Kind) (h : ".txt".toList <:+ n) : k.handles n = false := by
  rw [handles, List.any_eq_false]
  intro s hs hsuffix
  obtain ⟨hne, hlast⟩ := k.getLast?_suffixes s hs
  apply hlast
  rw [← List.getLast?_of_suffix (List.isSuffixOf_iff_suffix.mp hsuffix) hne, (getLast?_of_copy h).2]

theorem not_suffix_of_handledBy {kinds : List Kind} (hn : n.IsName)
    (h : handledBy kinds (p.join ⟨n⟩) = true) : ¬ ".txt".toList <:+ n := by
  intro hcopy
  rw [handledBy, fileName?_join hn, Option.any_some] at h
  obtain ⟨k, -, hk⟩ := List.any_eq_true.mp h
  rw [k.not_handles hcopy] at hk
  cases hk

/-- No copy declares a project. -/
theorem not_suffix_of_ofPath? (hn : n.IsName)
    (h : (DescriptorKind.ofPath? (p.join ⟨n⟩)).isSome = true) : ¬ ".txt".toList <:+ n := by
  intro hcopy
  obtain ⟨hlast, hlower⟩ := getLast?_of_copy hcopy
  rw [DescriptorKind.ofPath?, fileName?_join hn] at h
  have hproject : ".csproj".toList.isSuffixOf n.asciiLower = false := by
    rw [← Bool.not_eq_true, List.isSuffixOf_iff_suffix]
    intro hs
    rw [List.getLast?_of_suffix hs (by decide)] at hlower
    revert hlower
    decide
  have hne {s : Text} (hs : s.getLast? ≠ some 't') : n ≠ s := fun heq => hs (heq ▸ hlast)
  simp only [hproject, Bool.false_eq_true, if_false, if_neg (hne (s := "angular.json".toList) (by decide)),
    if_neg (hne (s := "package.json".toList) (by decide))] at h
  cases h

/-- A condition on paths that no path to a copy meets. -/
def PassesOver (keep : Path → Bool) : Prop :=
  ∀ (q : Path) (n : Text), n.IsName → keep (q.join ⟨n⟩) = true → ¬ ".txt".toList <:+ n

theorem passesOver_handledBy (kinds : List Kind) : PassesOver (handledBy kinds) :=
  fun _ _ => not_suffix_of_handledBy

theorem passesOver_descriptors : PassesOver fun p => (DescriptorKind.ofPath? p).isSome :=
  fun _ _ => not_suffix_of_ofPath?

namespace Disk

/-- A search begins at any directory. -/
theorem exists_filesBelow (h : d.isDir dir = true) (o : SearchOptions) :
    ∃ files, d.filesBelow o dir = .ok files := by
  obtain ⟨hne, b, hb⟩ := isDir_iff.mp h
  exact ⟨_, hb.filesBelow hne⟩

theorem exists_projectsBelow (h : d.isDir dir = true) : ∃ projects, d.projectsBelow dir = .ok projects := by
  obtain ⟨files, hfiles⟩ := exists_filesBelow h {}
  exact ⟨_, by rw [projectsBelow, hfiles]; rfl⟩

theorem Enters.way_spec (h : d.Enters dir start) (ht : d.Tidy) (hway : way ∈ d.waysBelow o start) :
    (∀ n ∈ way, n.IsName) ∧ way ≠ [] ∧ ∃ c, d.look (start ++ way) = some (some c) := by
  obtain ⟨⟨c, hc⟩, -⟩ := ht.mem_waysBelow.mp hway
  exact ⟨ht.isName_of_look hc, h.ne_nil (by simp [hc]), c, hc⟩

theorem Enters.isSource (h : d.Enters dir start) (ht : d.Tidy) {keep : Path → Bool}
    (hover : PassesOver keep) (hway : way ∈ d.waysBelow o start)
    (hkeep : keep (dir.joinAll way) = true) : d.IsSource (dir.joinAll way) := by
  obtain ⟨hnames, hne, c, hc⟩ := h.way_spec ht hway
  refine ⟨joinAll_text_ne_nil hne hnames, start ++ way, ?_, ?_, c, hc⟩
  · rw [h.follow_joinAll ht hnames]
    exact Node.follow_names ht.root hc
  · obtain ⟨ms, n, rfl⟩ := (List.eq_nil_or_concat' way).resolve_left hne
    rw [joinAll_concat] at hkeep
    rw [← List.append_assoc, Place.isCopy_concat_iff]
    exact hover _ n (hnames n (by simp)) hkeep

section copies
variable (h : d.Becomes ws e) (hws : AreCopies ws) (ht : d.Tidy)
  (hdir : d.Enters dir start) (hne : dir.text ≠ [])
include h hws ht hdir hne

/-- A search that passes over copies finds the same files after some have been written. -/
theorem Becomes.filter_filesBelow {keep : Path → Bool} (hover : PassesOver keep) :
    (e.filesBelow o dir).map (·.filter keep) = (d.filesBelow o dir).map (·.filter keep) := by
  rw [hdir.filesBelow ht hne, (h.enters ht hdir).filesBelow (h.isTidy ht) hne, Except.map, Except.map,
    List.filter_map, List.filter_map, h.filter_waysBelow hws ht hdir.dir]
  intro ms n hn hk
  rw [Function.comp_apply, joinAll_concat] at hk
  exact hover _ n (hn n (by simp)) hk

theorem Becomes.sourcesBelow (kinds : List Kind) :
    e.sourcesBelow kinds o dir = d.sourcesBelow kinds o dir :=
  h.filter_filesBelow hws ht hdir hne (passesOver_handledBy kinds)

theorem Becomes.projectsBelow : e.projectsBelow dir = d.projectsBelow dir := by
  have hsplit (d : Disk) : d.projectsBelow dir =
      ((d.filesBelow {} dir).map (·.filter fun p => (DescriptorKind.ofPath? p).isSome)).map
        d.projectsOf := by
    rw [Disk.projectsBelow]
    cases d.filesBelow {} dir <;> rfl
  rw [hsplit, hsplit, h.filter_filesBelow hws ht hdir hne passesOver_descriptors,
    hdir.filesBelow ht hne]
  refine congrArg Except.ok (List.foldl_ext _ _ _ fun projects p hp => ?_)
  obtain ⟨hmem, hkeep⟩ := List.mem_filter.mp hp
  obtain ⟨way, hway, rfl⟩ := List.mem_map.mp hmem
  have hsource := hdir.isSource ht passesOver_descriptors hway hkeep
  have hname (k : DescriptorKind) :
      e.projectName k (dir.joinAll way) = d.projectName k (dir.joinAll way) := by
    rw [projectName, projectName, h.textOf hws ht hsource]
  simp only [hname]

end copies

end Disk

namespace Job

variable {j : Job} {projects : Projects} {files : List Path} {rules : List Rule} {err : Failure}

/-- In a directory only the rules can keep a plan from being made. -/
theorem plan_eq_error (h : d.isDir j.source = true) :
    j.plan d = .error err ↔ j.settings.exclusion.rules = .error err := by
  obtain ⟨projects, hprojects⟩ := Disk.exists_projectsBelow h
  obtain ⟨files, hfiles⟩ := Disk.exists_filesBelow h
    { heedIgnoreFiles := j.settings.output.respectIgnoreFiles }
  rw [plan, Disk.sourcesBelow, hprojects, hfiles]
  cases j.settings.exclusion.rules with
  | error e =>
    change Except.error e = _ ↔ _
    rw [Except.error.injEq, Except.error.injEq]
  | ok rules => exact iff_of_false nofun nofun

theorem plan_parts (h : j.plan d = .ok (projects, files)) :
    ∃ rules found, j.settings.exclusion.rules = .ok rules ∧
      d.filesBelow { heedIgnoreFiles := j.settings.output.respectIgnoreFiles } j.source = .ok found ∧
      files = (found.filter (handledBy Kind.all)).filter fun p =>
        (excludedBy? rules ((p.below? j.source).getD p.components)).isNone := by
  rw [plan, Disk.sourcesBelow] at h
  cases hrules : j.settings.exclusion.rules with
  | error e =>
    rw [hrules] at h
    cases h
  | ok rules =>
    cases hprojects : d.projectsBelow j.source with
    | error e =>
      rw [hrules, hprojects] at h
      cases h
    | ok ps =>
      cases hfound : d.filesBelow
          { heedIgnoreFiles := j.settings.output.respectIgnoreFiles } j.source with
      | error e =>
        rw [hrules, hprojects, hfound] at h
        cases h
      | ok found =>
        rw [hrules, hprojects, hfound] at h
        exact ⟨rules, found, rfl, rfl, (Prod.mk.inj (Except.ok.inj h)).2.symm⟩

/-- What takes part has not changed once copies have been written. -/
theorem plan_again (h : d.Becomes ws e) (hws : AreCopies ws) (ht : d.Tidy)
    (hsource : d.Enters j.source start) (hne : j.source.text ≠ []) : j.plan e = j.plan d := by
  rw [plan, plan, h.projectsBelow hws ht hsource hne, h.sourcesBelow hws ht hsource hne]

/-- The files that take part, without the search that finds them. -/
def chosen (j : Job) (d : Disk) (start : Place) (rules : List Rule) : List Path :=
  (((d.waysBelow { heedIgnoreFiles := j.settings.output.respectIgnoreFiles } start).map
    j.source.joinAll).filter (handledBy Kind.all)).filter fun p =>
      (excludedBy? rules ((p.below? j.source).getD p.components)).isNone

theorem plan_eq_ok (ht : d.Tidy) (hsource : d.Enters j.source start) (hne : j.source.text ≠ [])
    (h : j.plan d = .ok (projects, files)) :
    ∃ rules, j.settings.exclusion.rules = .ok rules ∧ files = j.chosen d start rules := by
  obtain ⟨rules, found, hrules, hfound, rfl⟩ := plan_parts h
  rw [hsource.filesBelow ht hne] at hfound
  obtain rfl := Except.ok.inj hfound
  exact ⟨rules, hrules, rfl⟩

theorem mem_chosen (ht : d.Tidy) (hsource : d.Enters j.source start) :
    p ∈ j.chosen d start rules ↔
      ∃ way ∈ d.waysBelow { heedIgnoreFiles := j.settings.output.respectIgnoreFiles } start,
        p = j.source.joinAll way ∧ handledBy Kind.all p = true ∧
          excludedBy? rules (way.map .name) = none := by
  rw [chosen, List.mem_filter, List.mem_filter, List.mem_map]
  constructor
  · rintro ⟨⟨⟨way, hway, rfl⟩, hkind⟩, hrules⟩
    refine ⟨way, hway, rfl, hkind, ?_⟩
    rwa [below?_joinAll (hsource.way_spec ht hway).1, Option.isNone_iff_eq_none] at hrules
  · rintro ⟨way, hway, rfl, hkind, hrules⟩
    refine ⟨⟨⟨way, hway, rfl⟩, hkind⟩, ?_⟩
    rwa [below?_joinAll (hsource.way_spec ht hway).1, Option.isNone_iff_eq_none]

theorem isSource_of_mem_chosen (ht : d.Tidy) (hsource : d.Enters j.source start)
    (hp : p ∈ j.chosen d start rules) : d.IsSource p := by
  obtain ⟨way, hway, rfl, hkind, -⟩ := (mem_chosen ht hsource).mp hp
  exact hsource.isSource ht (passesOver_handledBy _) hway hkind

/-- The files come in the order of their paths, none of them twice. -/
theorem chosen_pairwise (ht : d.Tidy) (hsource : d.Enters j.source start) :
    (j.chosen d start rules).Pairwise fun p q => p.compare q = .lt := by
  exact List.Pairwise.filter _ (List.Pairwise.filter _
    (Disk.joinAll_pairwise (fun way hway => (hsource.way_spec ht hway).1) ht.waysBelow_pairwise))

theorem foldersOf_names (way : Place) : foldersOf (way.map .name) = way.dropLast := by
  rw [foldersOf, ← List.map_dropLast, List.filterMap_map]
  exact List.filterMap_some

theorem folder_mem_rules (h : j.settings.exclusion.rules = .ok rules) {f : Text}
    (hf : f ∈ baseFolders) : .folder f ∈ rules := by
  rw [ExclusionOptions.rules] at h
  cases hglobs : j.settings.exclusion.globs.mapM Rule.ofGlob with
  | error e =>
    rw [hglobs] at h
    cases h
  | ok patterns =>
    rw [hglobs] at h
    rw [← Except.ok.inj h, ExclusionOptions.folders]
    simp [hf]

/-- A directory that a search stays out of holds nothing that the rules let pass. -/
theorem admitted_of_not_excluded (h : j.settings.exclusion.rules = .ok rules)
    (hpass : excludedBy? rules (way.map .name) = none) :
    Node.Admitted (d.admits { heedIgnoreFiles := false } start) [] way := by
  refine (Disk.admitted_iff rfl).mpr fun f hf hbase => ?_
  have hexcludes := List.find?_eq_none.mp hpass _ (folder_mem_rules h hbase)
  rw [Rule.excludes, foldersOf_names] at hexcludes
  exact hexcludes (List.contains_iff_mem.mpr hf)

end Job

end CleanCopy
