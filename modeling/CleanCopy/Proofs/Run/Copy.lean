import CleanCopy.Proofs.Files.Write
import CleanCopy.Run.Convert

namespace CleanCopy

/-- A file of a run and what came of it. -/
abbrev Record := Path × Except Failure Unit

namespace Outcome

def note (o : Outcome) : Record → Outcome
  | (_, .ok ()) => o.success
  | (p, .error e) => o.failure (Job.errorText p e)

end Outcome

namespace Record

def message? : Record → Option Text
  | (_, .ok ()) => none
  | (p, .error e) => some (Job.errorText p e)

def isCopied (r : Record) : Bool := r.2.isOk

end Record

/-- The counts add up to the records, and each failure has its message. -/
theorem Outcome.foldl_note (rs : List Record) (o : Outcome) : rs.foldl note o =
    { total := o.total
      succeeded := o.succeeded + rs.countP Record.isCopied
      failed := o.failed + rs.countP fun r => !r.isCopied
      errors := o.errors ++ rs.filterMap Record.message? } := by
  induction rs generalizing o with
  | nil => simp
  | cons r rs ih =>
    obtain ⟨p, r⟩ := r
    rw [List.foldl_cons, ih]
    cases r with
    | ok u =>
      simp only [note, success, Record.message?, Record.isCopied, Except.isOk, Except.toBool,
        List.countP_cons, List.filterMap_cons]
      simp
      omega
    | error e =>
      simp only [note, failure, Record.message?, Record.isCopied, Except.isOk, Except.toBool,
        List.countP_cons, List.filterMap_cons]
      simp
      omega

namespace Job

variable {j : Job} {projects : Projects} {d e f : Disk} {ws : Writes} {p : Path} {x : Place}

/-- What came of each of some files when they were copied in order. -/
def records (j : Job) (projects : Projects) : List Path → Disk → List Record
  | [], _ => []
  | p :: ps, d => (p, (j.copyFile projects p d).2) :: j.records projects ps (j.copyFile projects p d).1

def copied (j : Job) (projects : Projects) : List Path → Disk → Disk
  | [], d => d
  | p :: ps, d => j.copied projects ps (j.copyFile projects p d).1

theorem records_paths (j : Job) (projects : Projects) (ps : List Path) (d : Disk) :
    (j.records projects ps d).map Prod.fst = ps := by
  induction ps generalizing d with
  | nil => rfl
  | cons p ps ih => rw [records, List.map_cons, ih]

theorem mem_of_mem_records {ps : List Path} {r : Record} (h : r ∈ j.records projects ps d) :
    r.1 ∈ ps := by
  rw [← records_paths j projects ps d]
  exact List.mem_map_of_mem h

theorem copyFiles_eq (ps : List Path) (o : Outcome) (d : Disk) :
    j.copyFiles projects ps o d =
      (j.copied projects ps d, (j.records projects ps d).foldl Outcome.note o) := by
  induction ps generalizing o d with
  | nil => rfl
  | cons p ps ih =>
    rw [copyFiles, copied, records, List.foldl_cons]
    split
    · rename_i e he
      rw [ih, he]
      rfl
    · rename_i e err he
      rw [ih, he]
      rfl

/-- A file that can be read, and whose copy has a place. -/
structure Ready (j : Job) (projects : Projects) (d : Disk) (p : Path) (x : Place) : Prop where
  source : d.IsSource p
  lands : d.Lands (j.destinationOf projects p) x
  copy : x.IsCopy

/-- What is written for a file, when its text is the one that a disk had at first. -/
def wrote (j : Job) (first : Disk) (place : Path → Place) (r : Record) : Writes :=
  match copyText j.settings.scrub first r.1 with
  | .ok t => Disk.written (place r.1) t r.2
  | .error _ => []

theorem Ready.again (h : j.Ready projects d p x) (ht : d.Tidy) (hbe : d.Becomes ws e)
    (hws : AreCopies ws) : j.Ready projects e p x :=
  ⟨hbe.isSource hws ht h.source, hbe.lands ht h.lands, h.copy⟩

/-- What a copy holds does not depend on the copies made before. -/
theorem Ready.copyText (h : j.Ready projects d p x) (ht : d.Tidy) (hbe : d.Becomes ws e)
    (hws : AreCopies ws) (o : ScrubOptions) : Job.copyText o e p = Job.copyText o d p := by
  rw [Job.copyText, Job.copyText, readSource, readSource, Disk.read, Disk.read,
    hbe.textOf hws ht h.source]

theorem wrote_isCopy {first : Disk} {place : Path → Place} {r : Record} (h : (place r.1).IsCopy) :
    AreCopies (j.wrote first place r) := by
  intro w hw
  rw [wrote] at hw
  split at hw
  · obtain ⟨p, r⟩ := r
    cases r with
    | ok u => rwa [List.mem_singleton.mp hw]
    | error e => cases hw
  · cases hw

section step
variable (ht : d.Tidy) {first : Disk} {place : Path → Place} (h : j.Ready projects d p (place p))
  (htext : copyText j.settings.scrub d p = copyText j.settings.scrub first p)
include ht h htext

theorem copyFile_becomes : d.Becomes (j.wrote first place (p, (j.copyFile projects p d).2))
    (j.copyFile projects p d).1 := by
  rw [wrote, ← htext, copyFile]
  cases copyText j.settings.scrub d p with
  | error err => exact .refl d
  | ok t => exact h.lands.writeWithParents ht t

theorem copyFile_again (hws : AreCopies ws)
    (hbe : (j.copyFile projects p d).1.Becomes ws e) :
    (j.copyFile projects p e).2 = (j.copyFile projects p d).2 := by
  have hstep := (copyFile_becomes ht h htext).trans hbe
  have hmine : AreCopies (j.wrote first place (p, (j.copyFile projects p d).2)) :=
    wrote_isCopy h.copy
  have hcopies := hmine.append hws
  have hsame := h.copyText ht hstep hcopies j.settings.scrub
  rw [copyFile] at hbe ⊢
  rw [hsame, copyFile]
  cases hd : copyText j.settings.scrub d p with
  | error err => rfl
  | ok t =>
    rw [hd] at hbe
    exact h.lands.writeWithParents_again ht hbe t

end step

/-- Files that are all ready, with the texts of their copies as they were at first. -/
def AllReady (j : Job) (projects : Projects) (first : Disk) (place : Path → Place) (ps : List Path)
    (d : Disk) : Prop :=
  ∀ p ∈ ps, j.Ready projects d p (place p) ∧
    copyText j.settings.scrub d p = copyText j.settings.scrub first p

section run
variable {first : Disk} {place : Path → Place} {ps : List Path}

theorem AllReady.again (h : j.AllReady projects first place ps d) (ht : d.Tidy)
    (hbe : d.Becomes ws e) (hws : AreCopies ws) : j.AllReady projects first place ps e := by
  intro p hp
  obtain ⟨hready, htext⟩ := h p hp
  exact ⟨hready.again ht hbe hws, (hready.copyText ht hbe hws _).trans htext⟩

theorem AllReady.isCopy (h : j.AllReady projects first place ps d) :
    AreCopies ((j.records projects ps d).flatMap (j.wrote first place)) := by
  intro w hw
  obtain ⟨r, hr, hw⟩ := List.mem_flatMap.mp hw
  exact wrote_isCopy (h r.1 (mem_of_mem_records hr)).1.copy w hw

/-- A run of copies leaves the old files with what the records say was written. -/
theorem AllReady.copied_becomes (h : j.AllReady projects first place ps d) (ht : d.Tidy) :
    d.Becomes ((j.records projects ps d).flatMap (j.wrote first place))
      (j.copied projects ps d) := by
  induction ps generalizing d with
  | nil => exact .refl d
  | cons p ps ih =>
    obtain ⟨⟨hready, htext⟩, hps⟩ := List.forall_mem_cons.mp h
    have hstep := copyFile_becomes ht hready htext
    have hrest : j.AllReady projects first place ps d := hps
    rw [records, copied, List.flatMap_cons]
    exact hstep.trans (ih (hrest.again ht hstep (wrote_isCopy hready.copy)) (hstep.isTidy ht))

/-- A run of copies that is done again later has the same records. -/
theorem AllReady.records_again (h : j.AllReady projects first place ps d) (ht : d.Tidy)
    (hbe : (j.copied projects ps d).Becomes ws e) (hws : AreCopies ws) :
    j.records projects ps e = j.records projects ps d := by
  induction ps generalizing d e ws with
  | nil => rfl
  | cons p ps ih =>
    -- `e` comes after all copies of the first run, so each file meets its own copy there.
    obtain ⟨⟨hready, htext⟩, hps⟩ := List.forall_mem_cons.mp h
    have hrest : j.AllReady projects first place ps d := hps
    have hstep := copyFile_becomes ht hready htext
    have hnext := hrest.again ht hstep (wrote_isCopy hready.copy)
    have htail := hnext.copied_becomes (hstep.isTidy ht)
    rw [copied] at hbe
    have hlater := htail.trans hbe
    have hcopies := hnext.isCopy.append hws
    have hsame := copyFile_again ht hready htext hcopies hlater
    -- In the second run the file is copied once more before the rest.
    have hready' := h.again ht (hstep.trans hlater) ((wrote_isCopy hready.copy).append hcopies)
    obtain ⟨hr, ht'⟩ := hready' p List.mem_cons_self
    have hmore := copyFile_becomes ((hstep.trans hlater).isTidy ht) hr ht'
    rw [records, records, hsame, ih hnext (hstep.isTidy ht) (hbe.trans hmore)
      (hws.append (wrote_isCopy hready.copy))]

/-- The second of two like runs leaves every regular file as it is. -/
theorem AllReady.copied_again (h : j.AllReady projects first place ps d) (ht : d.Tidy)
    (x : Place) (c : ByteArray) :
    (j.copied projects ps (j.copied projects ps d)).look x = some (some c) ↔
      (j.copied projects ps d).look x = some (some c) := by
  have hbe := h.copied_becomes ht
  have hbe' := (h.again ht hbe h.isCopy).copied_becomes (hbe.isTidy ht)
  rw [h.records_again ht (.refl _) areCopies_nil] at hbe'
  rw [hbe'.file, hbe.file]
  cases lastWrite x ((j.records projects ps d).flatMap (j.wrote first place)) <;> simp

end run

end Job

end CleanCopy
