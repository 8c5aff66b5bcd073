import CleanCopy.Proofs.Run.Convert

namespace CleanCopy.Job

variable {j : Job} {projects : Projects} {files : List Path} {d d' first : Disk} {o : Outcome}
  {start b x : Place}

section course
variable (h : j.Course d first start b projects files) (ht : d.Tidy)
include h ht

theorem Course.exists_record {place : Path → Place}
    (hready : j.AllReady projects first place files first)
    (hfile : ∃ c, d.look x = some (some c) ∨
      (j.copied projects files first).look x = some (some c))
    (hx : (j.copied projects files first).look x ≠ d.look x) :
    ∃ p, (p, .ok ()) ∈ j.records projects files first ∧ place p = x := by
  have hbe := (h.becomes ht).trans (hready.copied_becomes (h.tidy ht))
  rw [List.nil_append] at hbe
  -- What nothing was written to is a file on both disks or on none, with the same bytes.
  obtain ⟨c, hc⟩ : ∃ c, lastWrite x ((j.records projects files first).flatMap
      (j.wrote first place)) = some c := by
    by_contra hnone
    have hnone := Option.eq_none_iff_forall_ne_some.mpr fun c hc => hnone ⟨c, hc⟩
    obtain ⟨c, hc⟩ := hfile
    have hsame := hbe.file_of_none (c := c) hnone
    rcases hc with hc | hc
    · exact hx ((hsame.mpr hc).trans hc.symm)
    · exact hx (hc.trans (hsame.mp hc).symm)
  obtain ⟨r, hr, hw⟩ := List.mem_flatMap.mp (exists_mem_of_lastWrite hc)
  obtain ⟨p, r⟩ := r
  obtain ⟨rfl, rfl⟩ := eq_ok_of_mem_wrote hw
  exact ⟨p, hr, rfl⟩

/-- A regular file that is new or changed is the copy of a file. -/
theorem Course.exists_destination (hfile : ∃ c, d.look x = some (some c) ∨
      (j.copied projects files first).look x = some (some c))
    (hx : (j.copied projects files first).look x ≠ d.look x) :
    ∃ p ∈ files, (j.copied projects files first).resolve (j.destinationOf projects p) =
      .ok (.node x) := by
  obtain ⟨place, hready⟩ := h.exists_ready ht
  obtain ⟨p, hr, rfl⟩ := h.exists_record ht hready hfile hx
  exact ⟨p, mem_of_mem_records hr, hready.resolve_of_copied (h.tidy ht) hr⟩

/-- The same run can be done again, with the same outcome. -/
theorem Course.again : ∃ d'', j.run (j.copied projects files first) =
      (d'', .ok ((j.records projects files first).foldl Outcome.note (.ofTotal files.length))) ∧
    ∀ x c, d''.look x = some (some c) ↔
      (j.copied projects files first).look x = some (some c) := by
  obtain ⟨place, hready⟩ := h.exists_ready ht
  have htidy := h.tidy ht
  have hcopied := hready.copied_becomes htidy
  have htidy' := hcopied.isTidy htidy
  have hsource := (h.becomes ht).enters ht h.source
  have hdest := hcopied.enters htidy h.destination
  -- The second run begins where the first one ended, and it plans the same.
  have hcourse : j.Course (j.copied projects files first) (j.copied projects files first) start b
      projects files := by
    refine ⟨hdest.makeDirs htidy', ?_, h.named, hcopied.enters htidy hsource, hdest⟩
    rw [plan_again hcopied hready.isCopy htidy hsource h.named, h.plan]
  refine ⟨j.copied projects files (j.copied projects files first), ?_, hready.copied_again htidy⟩
  refine (run_eq_ok htidy').mpr ⟨_, start, b, projects, files, hcourse, rfl, ?_⟩
  rw [hready.records_again htidy (.refl _) areCopies_nil]

end course

/-- A run leaves every regular file as it is whose name does not end as the names of copies do, it
makes and changes no other regular files than copies of the files that take part, and when it is
done once more, its outcome is the same and no regular file changes. -/
theorem run_repeatable (ht : d.Tidy) (h : j.run d = (d', .ok o)) :
    (∀ x c, ¬ x.IsCopy → (d'.look x = some (some c) ↔ d.look x = some (some c))) ∧
    (∃ first projects files, d.makeDirs j.destination = (first, .ok ()) ∧
      j.plan first = .ok (projects, files) ∧
      ∀ x, (∃ c, d.look x = some (some c) ∨ d'.look x = some (some c)) → d'.look x ≠ d.look x →
        ∃ p ∈ files, d'.resolve (j.destinationOf projects p) = .ok (.node x)) ∧
    ∃ d'', j.run d' = (d'', .ok o) ∧ ∀ x c, d''.look x = some (some c) ↔ d'.look x = some (some c) := by
  obtain ⟨first, start, b, projects, files, hc, rfl, rfl⟩ := (run_eq_ok ht).mp h
  obtain ⟨place, hready⟩ := hc.exists_ready ht
  have hbe := (hc.becomes ht).trans (hready.copied_becomes (hc.tidy ht))
  refine ⟨fun x c hx => hbe.file_of_not_isCopy (areCopies_nil.append hready.isCopy) hx, ?_,
    hc.again ht⟩
  exact ⟨first, projects, files, hc.dirs, hc.plan, fun x => hc.exists_destination ht⟩

/-- A tree in which two copies go to the same place, among their sources. -/
def collidingTree : Disk where
  root := .dir [("src".toList, .dir [
    ("a.cs".toList, .file (Text.toBytes "x();".toList)),
    ("a.py".toList, .file (Text.toBytes "pass # y".toList))])]

def collidingJob : Job where
  source := .ofString "src"
  destination := .ofString "src"

theorem run_repeatable_when_colliding :
    ∃ d'', collidingJob.run (collidingJob.run collidingTree).1 =
        (d'', .ok { total := 2, succeeded := 2 }) ∧
      ∀ x c, d''.look x = some (some c) ↔
        (collidingJob.run collidingTree).1.look x = some (some c) := by
  have htidy : collidingTree.Tidy := by decide
  have hrun := run_eq_of_outcome (j := collidingJob) (d := collidingTree)
    (o := { total := 2, succeeded := 2 }) (by decide +kernel)
  exact (run_repeatable htidy hrun).2.2

end CleanCopy.Job
