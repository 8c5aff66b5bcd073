import CleanCopy.Select.Exclusion

namespace CleanCopy

variable {globs : List Text} {o : ExclusionOptions} {e : Failure}

theorem Rule.ofGlob_eq_error {glob : Text} (h : ofGlob glob = .error e) :
    Glob.compile? glob = none ∧ ∃ cause, e = .pattern glob cause := by
  rw [ofGlob] at h
  split at h
  · cases h
  · rename_i hg
    exact ⟨hg, _, (Except.error.inj h).symm⟩

theorem Rule.ofGlob_eq_ok {glob : Text} {rule : Rule} (h : ofGlob glob = .ok rule) :
    Glob.compile? glob ≠ none := by
  rw [ofGlob] at h
  split at h
  · rename_i hg
    rw [hg]
    exact Option.some_ne_none _
  · cases h

/-- Globs are compiled in order, up to the first that does not compile. -/
theorem mapM_ofGlob (globs : List Text) :
    (∃ rules, globs.mapM Rule.ofGlob = .ok rules) ∧ (∀ glob ∈ globs, Glob.compile? glob ≠ none) ∨
      ∃ glob ∈ globs, Glob.compile? glob = none ∧
        ∃ cause, globs.mapM Rule.ofGlob = .error (.pattern glob cause) := by
  induction globs with
  | nil => exact .inl ⟨⟨[], rfl⟩, fun _ h => absurd h List.not_mem_nil⟩
  | cons glob globs ih =>
    rw [List.mapM_cons]
    cases hg : Rule.ofGlob glob with
    | error e =>
      obtain ⟨hnone, cause, rfl⟩ := Rule.ofGlob_eq_error hg
      exact .inr ⟨glob, List.mem_cons_self, hnone, cause, rfl⟩
    | ok rule =>
      rcases ih with ⟨⟨rules, hrules⟩, hall⟩ | ⟨bad, hbad, hnone, cause, herr⟩
      · refine .inl ⟨⟨rule :: rules, by rw [hrules]; rfl⟩, ?_⟩
        exact List.forall_mem_cons.mpr ⟨Rule.ofGlob_eq_ok hg, hall⟩
      · exact .inr ⟨bad, List.mem_cons_of_mem _ hbad, hnone, cause, by rw [herr]; rfl⟩

theorem compile?_builtIn :
    ∀ glob ∈ interfaceGlobs ++ testGlobs ++ generatedGlobs, Glob.compile? glob ≠ none := by
  decide +kernel

theorem ExclusionOptions.mem_extraPatterns {glob : Text} (h : glob ∈ o.globs)
    (hnone : Glob.compile? glob = none) : glob ∈ o.extraPatterns := by
  have hbuiltIn := mt (compile?_builtIn glob) (not_not_intro hnone)
  rw [List.mem_append, List.mem_append, not_or, not_or] at hbuiltIn
  obtain ⟨⟨hinterface, htest⟩, hgenerated⟩ := hbuiltIn
  rw [globs, List.mem_append, List.mem_append, List.mem_append] at h
  rcases h with ((h | h) | h) | h
  · split at h
    · cases h
    · exact absurd h hinterface
  · split at h
    · cases h
    · exact absurd h htest
  · split at h
    · cases h
    · exact absurd h hgenerated
  · exact h

/-- Only a pattern of the user's can keep the rules from being made. -/
theorem ExclusionOptions.rules_eq_error (h : o.rules = .error e) :
    ∃ glob ∈ o.extraPatterns, Glob.compile? glob = none ∧ ∃ cause, e = .pattern glob cause := by
  rw [rules] at h
  rcases mapM_ofGlob o.globs with ⟨⟨rules, hrules⟩, -⟩ | ⟨glob, hglob, hnone, cause, herr⟩
  · rw [hrules] at h
    cases h
  · rw [herr] at h
    exact ⟨glob, mem_extraPatterns hglob hnone, hnone, cause, (Except.error.inj h).symm⟩

theorem ExclusionOptions.rules_eq_ok {rules : List Rule} (h : o.rules = .ok rules) :
    ∀ glob ∈ o.extraPatterns, Glob.compile? glob ≠ none := by
  intro glob hglob
  have hmem : glob ∈ o.globs := List.mem_append_right _ hglob
  rw [ExclusionOptions.rules] at h
  rcases mapM_ofGlob o.globs with ⟨-, hall⟩ | ⟨_, -, -, cause, herr⟩
  · exact hall glob hmem
  · rw [herr] at h
    cases h

end CleanCopy
