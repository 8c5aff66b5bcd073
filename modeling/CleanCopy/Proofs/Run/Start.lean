import CleanCopy.Proofs.Files.Extends
import CleanCopy.Proofs.Run.Copy
import CleanCopy.Proofs.Run.Failure
import CleanCopy.Proofs.Run.Plan

namespace CleanCopy

open CleanCopy.Path

namespace Job

variable {j : Job} {d first : Disk} {projects : Projects} {files : List Path} {o : Outcome}
  {err : Failure} {p : Path}

/-- The source is a directory, the destination is made, and the files are chosen. -/
structure Starts (j : Job) (d first : Disk) (projects : Projects) (files : List Path) : Prop where
  source : d.isDir j.source = true
  dirs : d.makeDirs j.destination = (first, .ok ())
  plan : j.plan first = .ok (projects, files)

theorem Starts.run_eq (h : j.Starts d first projects files) : j.run d =
    (j.copied projects files first,
      .ok ((j.records projects files first).foldl Outcome.note (.ofTotal files.length))) := by
  rw [run, if_pos h.source, h.dirs]
  simp only [h.plan, copyFiles_eq]

section
variable (hsource : d.isDir j.source = true) (hdirs : d.makeDirs j.destination = (first, .ok ()))
include hsource hdirs

theorem isDir_source_of_dirs : first.isDir j.source = true := by
  have := d.makeDirs_widens j.destination
  rw [hdirs] at this
  exact this.grows.isDir hsource

theorem run_of_rules_error (hrules : j.settings.exclusion.rules = .error err) :
    j.run d = (first, .error err) := by
  have hplan := (plan_eq_error (isDir_source_of_dirs hsource hdirs)).mpr hrules
  rw [run, if_pos hsource, hdirs]
  simp only [hplan]

theorem exists_starts {rules : List Rule} (hrules : j.settings.exclusion.rules = .ok rules) :
    ∃ projects files, j.Starts d first projects files := by
  cases hplan : j.plan first with
  | error err =>
    cases hrules.symm.trans ((plan_eq_error (isDir_source_of_dirs hsource hdirs)).mp hplan)
  | ok parts => exact ⟨parts.1, parts.2, hsource, hdirs, hplan⟩

end

/-- What ends a run before any file is copied. -/
inductive Stops (j : Job) (d : Disk) : Failure → Prop
  | source (h : d.isDir j.source = false) :
      Stops j d (.setup ("Source directory does not exist: ".toList ++ j.source.text) none)
  | destination {cause : FileError} (source : d.isDir j.source = true)
      (h : (d.makeDirs j.destination).2 = .error cause) :
      Stops j d (.setup ("Cannot create destination directory ".toList ++ j.destination.text)
        (some cause.message))
  | rules {err : Failure} (source : d.isDir j.source = true)
      (destination : (d.makeDirs j.destination).2 = .ok ())
      (h : j.settings.exclusion.rules = .error err) : Stops j d err

/-- A run either starts and then ends with an outcome, or it ends at once. -/
theorem starts_or_stops (j : Job) (d : Disk) :
    (∃ first projects files, j.Starts d first projects files) ∨
      ∃ err, j.Stops d err ∧ (j.run d).2 = .error err ∧ d.Widens (j.run d).1 := by
  have hwide := d.makeDirs_widens j.destination
  cases hsource : d.isDir j.source with
  | false =>
    refine .inr ⟨_, .source hsource, ?_⟩
    rw [run, hsource]
    exact ⟨rfl, .refl d⟩
  | true =>
    rcases hdirs : d.makeDirs j.destination with ⟨first, r⟩
    rw [hdirs] at hwide
    cases r with
    | error cause =>
      refine .inr ⟨_, .destination hsource (by rw [hdirs]), ?_⟩
      rw [run, if_pos hsource, hdirs]
      exact ⟨rfl, hwide⟩
    | ok u =>
      cases hrules : j.settings.exclusion.rules with
      | error err =>
        refine .inr ⟨err, .rules hsource (by rw [hdirs]) hrules, ?_⟩
        rw [run_of_rules_error hsource hdirs hrules]
        exact ⟨rfl, hwide⟩
      | ok rules =>
        obtain ⟨projects, files, hstarts⟩ := exists_starts hsource hdirs hrules
        exact .inl ⟨first, projects, files, hstarts⟩

theorem run_eq_ok_iff : (∃ o, (j.run d).2 = .ok o) ↔
    ∃ first projects files, j.Starts d first projects files := by
  constructor
  · rintro ⟨o, ho⟩
    refine (starts_or_stops j d).resolve_right ?_
    rintro ⟨err, -, herr, -⟩
    cases ho.symm.trans herr
  · rintro ⟨first, projects, files, h⟩
    exact ⟨_, congrArg Prod.snd h.run_eq⟩

theorem stops_of_run (h : (j.run d).2 = .error err) : j.Stops d err ∧ d.Widens (j.run d).1 := by
  rcases starts_or_stops j d with ⟨first, projects, files, hstarts⟩ | ⟨e, hstops, herr, hwide⟩
  · rw [hstarts.run_eq] at h
    cases h
  · cases h.symm.trans herr
    exact ⟨hstops, hwide⟩

theorem run_eq_of_outcome (h : (j.run d).2.toOption = some o) : j.run d = ((j.run d).1, .ok o) := by
  cases hok : (j.run d).2 with
  | error e =>
    rw [hok] at h
    cases h
  | ok o' =>
    rw [hok] at h
    exact Prod.ext rfl (hok.trans (congrArg Except.ok (Option.some.inj h)))

theorem exists_copyFile_of_mem_records {ps : List Path} {r : Record}
    (hr : r ∈ j.records projects ps d) : ∃ e, r.2 = (j.copyFile projects r.1 e).2 := by
  induction ps generalizing d with
  | nil => cases hr
  | cons p ps ih =>
    rw [records] at hr
    rcases List.mem_cons.mp hr with rfl | hr
    · exact ⟨d, rfl⟩
    · exact ih hr

theorem Starts.handled (h : j.Starts d first projects files) (hp : p ∈ files) :
    handledBy Kind.all p = true := by
  obtain ⟨rules, found, -, -, rfl⟩ := plan_parts h.plan
  exact (List.mem_filter.mp (List.mem_filter.mp hp).1).2

end Job

end CleanCopy
