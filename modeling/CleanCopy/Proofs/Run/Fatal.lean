import CleanCopy.Proofs.Run.Start

namespace CleanCopy

namespace Job

variable {j : Job} {d first : Disk} {projects : Projects} {files : List Path} {err : Failure}

/-- Of what ends a run, only a pattern that does not compile counts as no more than a failure of one
file. -/
theorem Stops.isFatal_eq_false_iff (h : j.Stops d err) : err.isFatal = false ↔
    ∃ glob ∈ j.settings.exclusion.extraPatterns, Glob.compile? glob = none ∧
      ∃ cause, err = .pattern glob cause := by
  constructor
  · intro hfatal
    cases h with
    | source => cases hfatal
    | destination => cases hfatal
    | rules _ _ hrules => exact ExclusionOptions.rules_eq_error hrules
  · rintro ⟨glob, -, -, cause, rfl⟩
    rfl

theorem Stops.isFatal_iff (h : j.Stops d err) : err.isFatal = true ↔
    d.isDir j.source = false ∨ ∃ cause, (d.makeDirs j.destination).2 = .error cause := by
  cases h with
  | source hsource => exact iff_of_true rfl (.inl hsource)
  | destination _ hdirs => exact iff_of_true rfl (.inr ⟨_, hdirs⟩)
  | rules hsource hdirs hrules =>
    obtain ⟨glob, -, -, cause, rfl⟩ := ExclusionOptions.rules_eq_error hrules
    rw [hsource, hdirs]
    exact iff_of_false nofun (by rintro (h | ⟨_, h⟩) <;> cases h)

/-- What is recorded for a file is a failure to read or to write. -/
theorem Starts.recorded (h : j.Starts d first projects files) {r : Record}
    (hr : r ∈ j.records projects files first) (herr : r.2 = .error err) :
    ∃ p cause, err = .file p cause := by
  obtain ⟨e, he⟩ := exists_copyFile_of_mem_records hr
  exact copyFile_error (h.handled (mem_of_mem_records hr)) (he.symm.trans herr)

/-- What ends a run counts as fatal, a pattern that does not compile apart, and what a run records
for a file never does. -/
theorem run_fatal (j : Job) (d : Disk) :
    (∀ err, (j.run d).2 = .error err →
      (err.isFatal = true ↔ d.isDir j.source = false ∨
        ∃ cause, (d.makeDirs j.destination).2 = .error cause) ∧
      (err.isFatal = false ↔ ∃ glob ∈ j.settings.exclusion.extraPatterns,
        Glob.compile? glob = none ∧ ∃ cause, err = .pattern glob cause)) ∧
    ∀ o, (j.run d).2 = .ok o → ∃ first projects files, j.Starts d first projects files ∧
      o = (j.records projects files first).foldl Outcome.note (.ofTotal files.length) ∧
      ∀ r ∈ j.records projects files first, ∀ err, r.2 = .error err → err.isFatal = false := by
  refine ⟨fun err herr => ?_, fun o ho => ?_⟩
  · have hstops := (stops_of_run herr).1
    exact ⟨hstops.isFatal_iff, hstops.isFatal_eq_false_iff⟩
  · obtain ⟨first, projects, files, hstarts⟩ := run_eq_ok_iff.mp ⟨o, ho⟩
    rw [hstarts.run_eq] at ho
    refine ⟨first, projects, files, hstarts, (Except.ok.inj ho).symm, fun r hr err herr => ?_⟩
    obtain ⟨p, cause, rfl⟩ := hstarts.recorded hr herr
    rfl

def backwardsTree : Disk where
  root := .dir [("src".toList, .dir [("a.cs".toList, .file (Text.toBytes "x".toList))])]

/-- A job with a pattern whose range runs backwards. -/
def backwardsJob : Job where
  source := .ofString "src"
  destination := .ofString "out"
  settings := { exclusion := { extraPatterns := ["[z-a]".toList] } }

theorem run_ends_by_pattern :
    ∃ err, (backwardsJob.run backwardsTree).2 = .error err ∧ err.isFatal = false := by
  have hrun : (match (backwardsJob.run backwardsTree).2 with
      | .ok _ => none
      | .error err => some err.isFatal) = some false := by decide +kernel
  cases hr : (backwardsJob.run backwardsTree).2 with
  | ok o =>
    rw [hr] at hrun
    cases hrun
  | error err =>
    rw [hr] at hrun
    exact ⟨err, rfl, Option.some.inj hrun⟩

end Job

end CleanCopy
