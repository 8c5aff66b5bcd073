import CleanCopy.Proofs.Files.Intact
import CleanCopy.Proofs.Files.Named
import CleanCopy.Proofs.Run.Route
import CleanCopy.Proofs.Run.Start

namespace CleanCopy

open CleanCopy.Path

namespace Job

variable {j : Job} {d e first : Disk} {projects : Projects} {files ps : List Path} {p : Path}
  {b : Place} {err : Failure}

theorem copyFile_extends (j : Job) (projects : Projects) (p : Path) (e : Disk) :
    e.Extends (j.copyFile projects p e).1 := by
  rw [copyFile]
  split
  · exact e.writeWithParents_extends _ _
  · exact .refl e

/-- A path from the source by names. -/
def IsBelowSource (j : Job) (p : Path) : Prop :=
  ∃ ms m, p = j.source.joinAll (ms ++ [m]) ∧ (∀ n ∈ ms, n.IsName) ∧ m.IsName

/-- A file that cannot be copied leaves the disk as it is. -/
theorem copyFile_intact (hdest : e.Reaches j.destination b) (hp : j.IsBelowSource p)
    (h : (j.copyFile projects p e).2 = .error err) : (j.copyFile projects p e).1 = e := by
  obtain ⟨ms, m, rfl, hms, hm⟩ := hp
  rw [copyFile] at h ⊢
  split
  · rename_i t ht
    simp only [ht] at h
    rcases Layout.destination_form hms hm j.settings.output.layout projects j.source
      j.destination with ⟨-, ns, s, hns, hs, hform⟩ | ⟨-, hname, hform⟩
    · rw [destinationOf, hform] at h ⊢
      exact hdest.writeWithParents_intact hns (isName_copy hs) h
    · rw [destinationOf, hform] at h ⊢
      exact hdest.writeWithParents_intact_join (notMem_sanitize _) hname (isName_copyOf hm) h
  · rfl

/-- The files that were copied, out of some that were tried. -/
def succeeding (j : Job) (projects : Projects) (ps : List Path) (e : Disk) : List Path :=
  ((j.records projects ps e).filter Record.isCopied).map Prod.fst

/-- The files that cannot be copied are as good as left out. -/
theorem records_succeeding (projects : Projects) (hdest : e.Reaches j.destination b)
    (hps : ∀ p ∈ ps, j.IsBelowSource p) :
    j.records projects (j.succeeding projects ps e) e =
        (j.records projects ps e).filter Record.isCopied ∧
      j.copied projects (j.succeeding projects ps e) e = j.copied projects ps e := by
  induction ps generalizing e with
  | nil => exact ⟨rfl, rfl⟩
  | cons p ps ih =>
    obtain ⟨hp, hps⟩ := List.forall_mem_cons.mp hps
    have ih := ih ((j.copyFile_extends projects p e).reaches hdest) hps
    cases hr : (j.copyFile projects p e).2 with
    | ok u =>
      have hcons : j.succeeding projects (p :: ps) e =
          p :: j.succeeding projects ps (j.copyFile projects p e).1 := by
        rw [succeeding, records, List.filter_cons_of_pos (by rw [hr]; rfl)]
        rfl
      rw [hcons, records, copied, ih.1, ih.2, records, List.filter_cons_of_pos (by rw [hr]; rfl)]
      exact ⟨rfl, rfl⟩
    | error err =>
      have hsame := copyFile_intact hdest hp hr
      rw [hsame] at ih
      have hcons : j.succeeding projects (p :: ps) e = j.succeeding projects ps e := by
        rw [succeeding, records, List.filter_cons_of_neg (by rw [hr]; exact Bool.false_ne_true),
          hsame]
        rfl
      rw [hcons, ih.1, ih.2, records, List.filter_cons_of_neg (by rw [hr]; exact Bool.false_ne_true),
        copied, hsame]
      exact ⟨rfl, rfl⟩

/-- Every file is tried and has its record, the outcome counts the records, and files and disk come
out as if no file that failed had been among them. -/
structure Undisturbed (j : Job) (projects : Projects) (files : List Path) (first last : Disk)
    (o : Outcome) : Prop where
  tried : (j.records projects files first).map Prod.fst = files
  counted : o = (j.records projects files first).foldl Outcome.note (.ofTotal files.length)
  others : j.records projects (j.succeeding projects files first) first =
    (j.records projects files first).filter Record.isCopied
  disk : last = j.copied projects (j.succeeding projects files first) first

theorem Starts.reaches (h : j.Starts d first projects files) : ∃ b, first.Reaches j.destination b := by
  obtain ⟨-, b, hb⟩ := Disk.isDir_iff.mp h.source
  exact Disk.makeDirs_ok hb.here h.dirs

theorem Starts.isBelowSource (h : j.Starts d first projects files) (hd : d.root.Named)
    (hp : p ∈ files) : j.IsBelowSource p := by
  have hfirst := Disk.makeDirs_named hd j.destination
  rw [h.dirs] at hfirst
  obtain ⟨rules, found, -, hfound, rfl⟩ := plan_parts h.plan
  exact Disk.exists_way hfirst hfound (List.mem_filter.mp (List.mem_filter.mp hp).1).1

theorem Starts.undisturbed (h : j.Starts d first projects files) (hd : d.root.Named) :
    j.Undisturbed projects files first (j.run d).1
      ((j.records projects files first).foldl Outcome.note (.ofTotal files.length)) := by
  obtain ⟨b, hb⟩ := h.reaches
  obtain ⟨hothers, hdisk⟩ := records_succeeding projects hb
    fun p hp => h.isBelowSource hd hp
  rw [h.run_eq]
  exact ⟨records_paths .., rfl, hothers, hdisk.symm⟩

theorem exists_stops_iff : (∃ err, j.Stops d err) ↔ d.isDir j.source = false ∨
    (∃ cause, (d.makeDirs j.destination).2 = .error cause) ∨
      ∃ glob ∈ j.settings.exclusion.extraPatterns, Glob.compile? glob = none := by
  constructor
  · rintro ⟨err, hsource | ⟨-, hdirs⟩ | ⟨-, -, hrules⟩⟩
    · exact .inl hsource
    · exact .inr (.inl ⟨_, hdirs⟩)
    · obtain ⟨glob, hglob, hnone, -⟩ := ExclusionOptions.rules_eq_error hrules
      exact .inr (.inr ⟨glob, hglob, hnone⟩)
  · intro h
    cases hsource : d.isDir j.source with
    | false => exact ⟨_, .source hsource⟩
    | true =>
      cases hdirs : (d.makeDirs j.destination).2 with
      | error cause => exact ⟨_, .destination hsource hdirs⟩
      | ok u =>
        rw [hsource, hdirs] at h
        obtain ⟨glob, hglob, hnone⟩ := (h.resolve_left nofun).resolve_left nofun
        cases hrules : j.settings.exclusion.rules with
        | error err => exact ⟨err, .rules hsource hdirs hrules⟩
        | ok rules => exact absurd hnone (ExclusionOptions.rules_eq_ok hrules glob hglob)

theorem Starts.not_stops (h : j.Starts d first projects files) : ¬ j.Stops d err := by
  rintro (hsource | ⟨-, hdirs⟩ | ⟨-, -, hrules⟩)
  · cases h.source.symm.trans hsource
  · rw [h.dirs] at hdirs
    cases hdirs
  · obtain ⟨rules, -, hok, -, -⟩ := plan_parts h.plan
    cases hok.symm.trans hrules

theorem exists_error_of_stops : (∃ err, j.Stops d err) → ∃ err, (j.run d).2 = .error err := by
  rintro ⟨err, hstops⟩
  rcases starts_or_stops j d with ⟨first, projects, files, hstarts⟩ | ⟨e, -, herr, -⟩
  · exact absurd hstops hstarts.not_stops
  · exact ⟨e, herr⟩

/-- A run fails as a whole just when the source is no directory, the destination cannot be made or
a pattern does not compile. It has then touched no file; and if it does not fail, no failure of one
file keeps another from being copied. -/
theorem run_setup (j : Job) {d : Disk} (hd : d.root.Named) :
    ((∃ err, (j.run d).2 = .error err) ↔ d.isDir j.source = false ∨
      (∃ cause, (d.makeDirs j.destination).2 = .error cause) ∨
        ∃ glob ∈ j.settings.exclusion.extraPatterns, Glob.compile? glob = none) ∧
    (∀ err, (j.run d).2 = .error err →
      ∀ x c, (j.run d).1.look x = some (some c) ↔ d.look x = some (some c)) ∧
    ∀ o, (j.run d).2 = .ok o → ∃ first projects files, j.Starts d first projects files ∧
      j.Undisturbed projects files first (j.run d).1 o := by
  refine ⟨?_, fun err herr => (stops_of_run herr).2.files, fun o ho => ?_⟩
  · rw [← exists_stops_iff]
    exact ⟨fun ⟨err, herr⟩ => ⟨err, (stops_of_run herr).1⟩, exists_error_of_stops⟩
  · obtain ⟨first, projects, files, hstarts⟩ := run_eq_ok_iff.mp ⟨o, ho⟩
    have hundisturbed := hstarts.undisturbed hd
    rw [hstarts.run_eq] at ho
    rw [Except.ok.inj ho] at hundisturbed
    exact ⟨first, projects, files, hstarts, hundisturbed⟩

/-- A tree with a file that is no text, and with a directory where a copy is to go. -/
def blockedTree : Disk where
  root := .dir [
    ("out".toList, .dir [("b.txt".toList, .dir [])]),
    ("src".toList, .dir [
      ("a.cs".toList, .file ⟨#[0xff]⟩),
      ("b.py".toList, .file (Text.toBytes "pass".toList)),
      ("c.cs".toList, .file (Text.toBytes "x();".toList))])]

def blockedJob : Job where
  source := .ofString "src"
  destination := .ofString "out"

theorem run_setup_when_blocked :
    ∃ first projects files, blockedJob.Starts blockedTree first projects files ∧
      blockedJob.Undisturbed projects files first (blockedJob.run blockedTree).1
        { total := 3
          succeeded := 1
          failed := 2
          errors := [
            ("Error processing src/a.cs: I/O error on src/a.cs: " ++
              "stream did not contain valid UTF-8").toList,
            ("Error processing src/b.py: I/O error on out/b.txt: " ++
              "Is a directory (os error 21)").toList] } :=
  (run_setup blockedJob (by decide)).2.2 _
    (congrArg Prod.snd (run_eq_of_outcome (j := blockedJob) (d := blockedTree) (by decide +kernel)))

end Job

end CleanCopy
