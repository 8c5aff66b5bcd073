import CleanCopy.Proofs.Select.Rules
import CleanCopy.Proofs.Text.Parent

namespace CleanCopy

/-- A path comes through a directory of that name. -/
def Path.ComesThrough (p : Path) (f : Text) : Prop :=
  ∃ dir, p.parent? = some dir ∧ .name f ∈ dir.components

namespace ExclusionOptions

/-- The names of directories that are shut. -/
inductive Shuts (o : ExclusionOptions) : Text → Prop
  | base {f : Text} (h : f ∈ baseFolders) : Shuts o f
  | migrations (off : o.includeMigrations = false) (named : o.migrationsFolder ≠ []) :
    Shuts o o.migrationsFolder
  | tests {f : Text} (off : o.includeTests = false) (h : f ∈ testFolders) : Shuts o f
  | extra {f : Text} (h : f ∈ o.extraFolders) : Shuts o f

/-- The globs that are in force. -/
inductive Enforces (o : ExclusionOptions) : Text → Prop
  | interfaces {g : Text} (off : o.includeInterfaces = false) (h : g ∈ interfaceGlobs) :
    Enforces o g
  | tests {g : Text} (off : o.includeTests = false) (h : g ∈ testGlobs) : Enforces o g
  | generated {g : Text} (off : o.includeGenerated = false) (h : g ∈ generatedGlobs) : Enforces o g
  | extra {g : Text} (h : g ∈ o.extraPatterns) : Enforces o g

/-- Options with more groups switched off, or with more folders or patterns of the user's. -/
structure Tightens (o' o : ExclusionOptions) : Prop where
  migrations : o.includeMigrations = false → o'.includeMigrations = false
  migrationsFolder : o'.migrationsFolder = o.migrationsFolder
  interfaces : o.includeInterfaces = false → o'.includeInterfaces = false
  tests : o.includeTests = false → o'.includeTests = false
  generated : o.includeGenerated = false → o'.includeGenerated = false
  extraFolders : o.extraFolders ⊆ o'.extraFolders
  extraPatterns : o.extraPatterns ⊆ o'.extraPatterns

variable {o o' : ExclusionOptions} {p : Path} {f glob : Text} {rules : List Rule} {r : Rule}

theorem mem_folders_iff : f ∈ o.folders ↔ o.Shuts f := by
  simp only [folders, List.mem_append, List.mem_ite_nil_left, List.mem_ite_nil_right,
    List.mem_singleton, Bool.and_eq_true, Bool.not_eq_true, Bool.not_eq_true',
    List.isEmpty_eq_false_iff]
  constructor
  · rintro (((h | ⟨⟨off, named⟩, rfl⟩) | ⟨off, h⟩) | h)
    · exact .base h
    · exact .migrations off named
    · exact .tests off h
    · exact .extra h
  · rintro (h | ⟨off, named⟩ | ⟨off, h⟩ | h)
    · exact .inl (.inl (.inl h))
    · exact .inl (.inl (.inr ⟨⟨off, named⟩, rfl⟩))
    · exact .inl (.inr ⟨off, h⟩)
    · exact .inr h

theorem mem_globs_iff : glob ∈ o.globs ↔ o.Enforces glob := by
  simp only [globs, List.mem_append, List.mem_ite_nil_left, Bool.not_eq_true]
  constructor
  · rintro (((⟨off, h⟩ | ⟨off, h⟩) | ⟨off, h⟩) | h)
    · exact .interfaces off h
    · exact .tests off h
    · exact .generated off h
    · exact .extra h
  · rintro (⟨off, h⟩ | ⟨off, h⟩ | ⟨off, h⟩ | h)
    · exact .inl (.inl (.inl ⟨off, h⟩))
    · exact .inl (.inl (.inr ⟨off, h⟩))
    · exact .inl (.inr ⟨off, h⟩)
    · exact .inr h

theorem Tightens.shuts (ht : o'.Tightens o) (h : o.Shuts f) : o'.Shuts f := by
  rcases h with h | ⟨off, named⟩ | ⟨off, h⟩ | h
  · exact .base h
  · rw [← ht.migrationsFolder] at named ⊢
    exact .migrations (ht.migrations off) named
  · exact .tests (ht.tests off) h
  · exact .extra (ht.extraFolders h)

theorem Tightens.enforces (ht : o'.Tightens o) (h : o.Enforces glob) : o'.Enforces glob := by
  rcases h with ⟨off, h⟩ | ⟨off, h⟩ | ⟨off, h⟩ | h
  · exact .interfaces (ht.interfaces off) h
  · exact .tests (ht.tests off) h
  · exact .generated (ht.generated off) h
  · exact .extra (ht.extraPatterns h)

end ExclusionOptions

/-- A rule keeps a path out: it comes through the folder, or the pattern takes its name. -/
def Rule.KeepsOut (p : Path) : Rule → Prop
  | folder f => p.ComesThrough f
  | pattern _ matcher => ∃ name, p.fileName? = some name ∧ matcher.accepts name = true

/-- What the options ask for. -/
def ExclusionOptions.Asks (o : ExclusionOptions) : Rule → Prop
  | .folder f => o.Shuts f
  | .pattern glob matcher => o.Enforces glob ∧ Glob.compile? glob = some matcher

variable {o o' : ExclusionOptions} {p : Path} {f glob : Text} {rules : List Rule} {r : Rule}

theorem mem_foldersOf_iff : f ∈ foldersOf p.components ↔ p.ComesThrough f := by
  have hname : f ∈ foldersOf p.components ↔ .name f ∈ p.components.dropLast := by
    rw [foldersOf, List.mem_filterMap]
    constructor
    · rintro ⟨c, hc, h⟩
      split at h
      · obtain rfl := Option.some.inj h
        exact hc
      · cases h
    · exact fun h => ⟨_, h, rfl⟩
  rw [hname]
  rcases p.parent?_cases with ⟨hnone, -, hnil⟩ | ⟨dir, hdir, -, hcomp⟩
  · rw [hnil]
    refine iff_of_false List.not_mem_nil ?_
    rintro ⟨dir, hdir, -⟩
    cases hnone.symm.trans hdir
  · rw [← hcomp]
    refine ⟨fun h => ⟨dir, hdir, h⟩, ?_⟩
    rintro ⟨dir', hdir', h⟩
    rwa [Option.some.inj (hdir.symm.trans hdir')]

namespace Rule

theorem excludes_iff : r.excludes (foldersOf p.components) p.fileName? = true ↔ r.KeepsOut p := by
  cases r with
  | folder f => rw [excludes, List.contains_iff_mem, mem_foldersOf_iff, KeepsOut]
  | pattern glob matcher => rw [excludes, Option.any_eq_true, KeepsOut]

theorem ofGlob_eq_ok_iff : ofGlob glob = .ok r ↔
    ∃ matcher, Glob.compile? glob = some matcher ∧ r = .pattern glob matcher := by
  rw [ofGlob]
  cases Glob.compile? glob with
  | none => simp
  | some matcher => simp [eq_comm]

theorem mem_mapM_ofGlob {globs : List Text} (h : globs.mapM ofGlob = .ok rules) :
    r ∈ rules ↔ ∃ glob ∈ globs, ofGlob glob = .ok r := by
  induction globs generalizing rules with
  | nil =>
    obtain rfl := Except.ok.inj h
    simp
  | cons glob globs ih =>
    rw [List.mapM_cons] at h
    cases hg : ofGlob glob with
    | error e => rw [hg] at h; cases h
    | ok first =>
      cases hgs : globs.mapM ofGlob with
      | error e => rw [hg, hgs] at h; cases h
      | ok rest =>
        rw [hg, hgs] at h
        obtain rfl := Except.ok.inj h
        simp [ih hgs, hg, eq_comm]

end Rule

namespace ExclusionOptions

/-- The rules are what the options ask for, folders first. -/
theorem rules_eq_append (h : o.rules = .ok rules) :
    ∃ patterns, rules = o.folders.map .folder ++ patterns ∧
      (∀ r ∈ patterns, ∃ glob matcher, r = .pattern glob matcher) ∧ ∀ r, r ∈ rules ↔ o.Asks r := by
  rw [ExclusionOptions.rules] at h
  cases hglobs : o.globs.mapM Rule.ofGlob with
  | error e => rw [hglobs] at h; cases h
  | ok patterns =>
    rw [hglobs] at h
    obtain rfl := Except.ok.inj h
    have hmem (r : Rule) : r ∈ patterns ↔ ∃ glob matcher, o.Enforces glob ∧
        Glob.compile? glob = some matcher ∧ r = .pattern glob matcher := by
      simp only [Rule.mem_mapM_ofGlob hglobs, mem_globs_iff, Rule.ofGlob_eq_ok_iff]
      constructor
      · rintro ⟨glob, hforce, matcher, hcompile, hr⟩
        exact ⟨glob, matcher, hforce, hcompile, hr⟩
      · rintro ⟨glob, matcher, hforce, hcompile, hr⟩
        exact ⟨glob, hforce, matcher, hcompile, hr⟩
    refine ⟨patterns, rfl, fun r hr => ?_, fun r => ?_⟩
    · obtain ⟨glob, matcher, -, -, hr⟩ := (hmem r).mp hr
      exact ⟨glob, matcher, hr⟩
    · rw [List.mem_append, hmem]
      cases r with
      | folder f => simp [mem_folders_iff, Asks]
      | pattern glob matcher => simp [Asks]

theorem Tightens.asks (ht : o'.Tightens o) (h : o.Asks r) : o'.Asks r := by
  cases r with
  | folder f => exact ht.shuts h
  | pattern glob matcher => exact ⟨ht.enforces h.1, h.2⟩

theorem exists_rules (h : ∀ glob ∈ o.extraPatterns, Glob.compile? glob ≠ none) :
    ∃ rules, o.rules = .ok rules := by
  cases hr : o.rules with
  | ok rules => exact ⟨rules, rfl⟩
  | error e =>
    obtain ⟨glob, hmem, hnone, -⟩ := rules_eq_error hr
    exact absurd hnone (h glob hmem)

/-- A path is kept out by what the options ask for, and by a folder where one applies. -/
theorem excludedBy?_cases (h : o.rules = .ok rules) (p : Path) :
    excludedBy? rules p.components = none ∧ (∀ r, o.Asks r → ¬ r.KeepsOut p) ∨
      ∃ r, excludedBy? rules p.components = some r ∧ o.Asks r ∧ r.KeepsOut p ∧
        ((∃ f, o.Shuts f ∧ p.ComesThrough f) → ∃ f, r = .folder f) := by
  obtain ⟨patterns, heq, hpatterns, hmem⟩ := rules_eq_append h
  have hfind : excludedBy? rules p.components =
      rules.find? fun r => r.excludes (foldersOf p.components) p.fileName? := rfl
  cases hr : excludedBy? rules p.components with
  | none =>
    rw [hfind, List.find?_eq_none] at hr
    exact .inl ⟨rfl, fun r hasks hkeeps => hr r ((hmem r).mpr hasks) (Rule.excludes_iff.mpr hkeeps)⟩
  | some r =>
    have hrule := hr
    rw [hfind] at hr
    have hkeeps := Rule.excludes_iff.mp (List.find?_some hr)
    refine .inr ⟨r, rfl, (hmem r).mp (List.mem_of_find?_eq_some hr), hkeeps, ?_⟩
    rintro ⟨f, hshuts, hcomes⟩
    -- The first rule that applies stands no later than the one for this folder.
    rw [heq, List.find?_append] at hr
    cases hfolder : (o.folders.map Rule.folder).find? fun r =>
        r.excludes (foldersOf p.components) p.fileName? with
    | none =>
      have hkeeps : (Rule.folder f).KeepsOut p := hcomes
      refine absurd (Rule.excludes_iff.mpr hkeeps) (List.find?_eq_none.mp hfolder _ ?_)
      exact List.mem_map_of_mem (mem_folders_iff.mpr hshuts)
    | some first =>
      rw [hfolder] at hr
      obtain rfl := Option.some.inj hr
      obtain ⟨f', -, hf'⟩ := List.mem_map.mp (List.mem_of_find?_eq_some hfolder)
      exact ⟨f', hf'.symm⟩

theorem exists_asked_iff : (∃ r, o.Asks r ∧ r.KeepsOut p) ↔ (∃ f, o.Shuts f ∧ p.ComesThrough f) ∨
    ∃ glob matcher name, o.Enforces glob ∧ Glob.compile? glob = some matcher ∧
      p.fileName? = some name ∧ matcher.accepts name = true := by
  constructor
  · rintro ⟨r, hasks, hkeeps⟩
    cases r with
    | folder f => exact .inl ⟨f, hasks, hkeeps⟩
    | pattern glob matcher =>
      obtain ⟨name, hname, haccepts⟩ := hkeeps
      exact .inr ⟨glob, matcher, name, hasks.1, hasks.2, hname, haccepts⟩
  · rintro (⟨f, hshuts, hcomes⟩ | ⟨glob, matcher, name, hforce, hcompile, hname, haccepts⟩)
    · exact ⟨.folder f, hshuts, hcomes⟩
    · exact ⟨.pattern glob matcher, ⟨hforce, hcompile⟩, name, hname, haccepts⟩

theorem excludedBy?_ne_none_iff (h : o.rules = .ok rules) :
    excludedBy? rules p.components ≠ none ↔ ∃ r, o.Asks r ∧ r.KeepsOut p := by
  rcases excludedBy?_cases h p with ⟨hnone, hall⟩ | ⟨r, hr, hasks, hkeeps, -⟩
  · rw [hnone]
    exact iff_of_false (fun hne => hne rfl) fun ⟨r, hasks, hkeeps⟩ => hall r hasks hkeeps
  · rw [hr]
    exact iff_of_true (Option.some_ne_none _) ⟨r, hasks, hkeeps⟩

/-- The rules keep out what the options say, a folder is the reason where one applies, and tighter
options keep out no less. -/
theorem excludedBy?_exact (o : ExclusionOptions)
    (h : ∀ glob ∈ o.extraPatterns, Glob.compile? glob ≠ none) :
    ∃ rules, o.rules = .ok rules ∧ ∀ p : Path,
      (excludedBy? rules p.components ≠ none ↔
        (∃ f, o.Shuts f ∧ p.ComesThrough f) ∨
          ∃ glob matcher name, o.Enforces glob ∧ Glob.compile? glob = some matcher ∧
            p.fileName? = some name ∧ matcher.accepts name = true) ∧
      ((∃ f, o.Shuts f ∧ p.ComesThrough f) →
        ∃ f, excludedBy? rules p.components = some (.folder f) ∧ o.Shuts f ∧ p.ComesThrough f) ∧
      ∀ o' : ExclusionOptions, o'.Tightens o →
        (∀ glob ∈ o'.extraPatterns, Glob.compile? glob ≠ none) →
        ∃ rules', o'.rules = .ok rules' ∧
          (excludedBy? rules p.components ≠ none → excludedBy? rules' p.components ≠ none) := by
  obtain ⟨rules, hrules⟩ := exists_rules h
  refine ⟨rules, hrules, fun p => ⟨?_, fun hfolder => ?_, fun o' ht h' => ?_⟩⟩
  · rw [excludedBy?_ne_none_iff hrules, exists_asked_iff]
  · rcases excludedBy?_cases hrules p with ⟨-, hall⟩ | ⟨r, hr, hasks, hkeeps, hfirst⟩
    · obtain ⟨f, hshuts, hcomes⟩ := hfolder
      exact absurd hcomes (hall (.folder f) hshuts)
    · obtain ⟨f, rfl⟩ := hfirst hfolder
      exact ⟨f, hr, hasks, hkeeps⟩
  · obtain ⟨rules', hrules'⟩ := exists_rules h'
    refine ⟨rules', hrules', fun hout => ?_⟩
    obtain ⟨r, hasks, hkeeps⟩ := (excludedBy?_ne_none_iff hrules).mp hout
    exact (excludedBy?_ne_none_iff hrules').mpr ⟨r, ht.asks hasks, hkeeps⟩

theorem excludedBy?_exact_of_spec_among_tests :
    let o : ExclusionOptions := { includeTests := false, extraPatterns := ["[a-c]*.css".toList] }
    let o' := { o with includeGenerated := false, extraFolders := ["legacy".toList] }
    let p := Path.ofString "./web/Tests/../x.spec.ts/"
    (∀ glob ∈ o.extraPatterns, Glob.compile? glob ≠ none) ∧ o'.Tightens o ∧
      ∃ rules rules', o.rules = .ok rules ∧ o'.rules = .ok rules' ∧
        (∃ f, excludedBy? rules p.components = some (.folder f)) ∧
        excludedBy? rules' p.components ≠ none := by
  intro o o' p
  have hcompile : ∀ glob ∈ o.extraPatterns, Glob.compile? glob ≠ none := by decide +kernel
  have htight : o'.Tightens o := by constructor <;> simp [o, o']
  have hfolder : ∃ f, o.Shuts f ∧ p.ComesThrough f :=
    ⟨"Tests".toList, .tests rfl (by decide), .ofString "./web/Tests/..", by decide, by decide⟩
  obtain ⟨rules, hrules, hexact⟩ := excludedBy?_exact o hcompile
  obtain ⟨-, hreason, hmono⟩ := hexact p
  obtain ⟨f, hf, -⟩ := hreason hfolder
  obtain ⟨rules', hrules', hout⟩ := hmono o' htight hcompile
  exact ⟨hcompile, htight, rules, rules', hrules, hrules', ⟨f, hf⟩,
    hout (by rw [hf]; exact Option.some_ne_none _)⟩

end ExclusionOptions

end CleanCopy
