import CleanCopy.Proofs.Run.Convert

namespace CleanCopy.Job

variable {j : Job} {projects : Projects} {files : List Path} {d d' first : Disk} {o : Outcome}
  {p : Path} {start b : Place} {before later : List Record}

/-- The counts and messages of an outcome are those of its records, which come in the order of
their paths, and each file that was copied last to its place is there, scrubbed. -/
structure Faithful (j : Job) (d d' : Disk) (projects : Projects) (rs : List Record) (o : Outcome) :
    Prop where
  ordered : rs.Pairwise fun r s => r.1.compare s.1 = .lt
  total : o.total = rs.length
  succeeded : o.succeeded = rs.countP Record.isCopied
  failed : o.failed = rs.countP fun r => !r.isCopied
  complete : o.total = o.succeeded + o.failed
  errors : o.errors = rs.filterMap Record.message?
  supported : ∀ r ∈ rs, ∀ q, r.2 ≠ .error (.unsupported q)
  copied : ∀ before p later, rs = before ++ (p, .ok ()) :: later →
    (∀ r ∈ later, r.2 = .ok () →
      d'.resolve (j.destinationOf projects r.1) ≠ d'.resolve (j.destinationOf projects p)) →
    ∃ k content, kindOf p = .ok k ∧ d.textOf p = .ok content ∧
      d'.bytesFrom d'.here (j.destinationOf projects p) =
        .ok (k.scrub j.settings.scrub ((Text.after? ['\uFEFF'] content).getD content)).toBytes

section course
variable (h : j.Course d first start b projects files) (ht : d.Tidy)
include h ht

/-- The text of a copied file is the one that it had before the run, scrubbed. -/
theorem Course.copyText_eq {t : Text} (hp : p ∈ files)
    (htext : copyText j.settings.scrub first p = .ok t) :
    ∃ k content, kindOf p = .ok k ∧ d.textOf p = .ok content ∧
      t = k.scrub j.settings.scrub ((Text.after? ['\uFEFF'] content).getD content) := by
  obtain ⟨k, hk⟩ := kindOf_of_handledBy (h.handled ht hp)
  have hsame := h.textOf ht hp
  cases hcontent : d.textOf p with
  | error cause =>
    rw [copyText_of_error (hsame.trans hcontent)] at htext
    cases htext
  | ok content =>
    rw [copyText_of_text hk (hsame.trans hcontent)] at htext
    exact ⟨k, content, hk, rfl, (Except.ok.inj htext).symm⟩

theorem Course.bytes_of_last
    (hrs : j.records projects files first = before ++ (p, .ok ()) :: later)
    (hlast : ∀ r ∈ later, r.2 = .ok () →
      (j.copied projects files first).resolve (j.destinationOf projects r.1) ≠
        (j.copied projects files first).resolve (j.destinationOf projects p)) :
    ∃ t, copyText j.settings.scrub first p = .ok t ∧
      (j.copied projects files first).bytesFrom (j.copied projects files first).here
        (j.destinationOf projects p) = .ok t.toBytes := by
  obtain ⟨place, hready⟩ := h.exists_ready ht
  have htidy := h.tidy ht
  have hcopied := hready.copied_becomes htidy
  have hr : (p, .ok ()) ∈ j.records projects files first := by
    rw [hrs]
    exact List.mem_append_right _ List.mem_cons_self
  have hlater {r : Record} (hr : r ∈ later) : r ∈ j.records projects files first := by
    rw [hrs]
    exact List.mem_append_right _ (List.mem_cons_of_mem _ hr)
  -- Copies that lead to different nodes in the end have different places.
  have hplaces : ∀ r ∈ later, r.2 = .ok () → place r.1 ≠ place p := by
    rintro ⟨q, -⟩ hq rfl hplace
    apply hlast _ hq rfl
    rw [hready.resolve_of_copied htidy (hlater hq), hready.resolve_of_copied htidy hr, hplace]
  obtain ⟨t, htext⟩ := hready.copyText_of_copied htidy hr
  have hlands := hcopied.lands htidy (hready p (mem_of_mem_records hr)).1.lands
  exact ⟨t, htext, (hlands.bytes (hcopied.isTidy htidy)).mpr
    (hready.look_of_last htidy hrs htext hplaces)⟩

theorem Course.faithful : j.Faithful d (j.copied projects files first) projects
    (j.records projects files first)
    ((j.records projects files first).foldl Outcome.note (.ofTotal files.length)) := by
  obtain ⟨place, hready⟩ := h.exists_ready ht
  have hpaths := records_paths j projects files first
  have hlength : (j.records projects files first).length = files.length := by
    rw [← hpaths, List.length_map, hpaths]
  rw [Outcome.foldl_note]
  constructor
  case ordered =>
    have hordered := h.ordered ht
    rw [← hpaths] at hordered
    exact List.pairwise_map.mp hordered
  case total => exact hlength.symm
  case succeeded => simp [Outcome.ofTotal]
  case failed => simp [Outcome.ofTotal]
  case complete =>
    change files.length = _
    rw [← hlength, List.length_eq_countP_add_countP Record.isCopied]
    simp [Outcome.ofTotal]
  case errors => rfl
  case supported =>
    intro r hr q herr
    obtain ⟨e, he, -⟩ := hready.mem_records (h.tidy ht) hr
    obtain ⟨q', cause, hfile⟩ :=
      copyFile_error (h.handled ht (mem_of_mem_records hr)) (he.symm.trans herr)
    cases hfile
  case copied =>
    intro before p later hrs hlast
    have hp : p ∈ files := by
      rw [← hpaths, hrs]
      simp
    obtain ⟨t, htext, hbytes⟩ := h.bytes_of_last ht hrs hlast
    obtain ⟨k, content, hk, hcontent, rfl⟩ := h.copyText_eq ht hp htext
    exact ⟨k, content, hk, hcontent, hbytes⟩

end course

/-- A run copies the regular files below its source whose names some kind takes and whose ways no
rule excludes, though it never enters some of the directories, and its outcome and the final tree
tell what came of them. -/
theorem run_faithful (ht : d.Tidy) (hignore : j.settings.output.respectIgnoreFiles = false)
    (h : j.run d = (d', .ok o)) :
    ∃ first start rules projects files,
      d.makeDirs j.destination = (first, .ok ()) ∧ j.plan first = .ok (projects, files) ∧
      d.resolve j.source = .ok (.node start) ∧ j.settings.exclusion.rules = .ok rules ∧
      (∀ p, p ∈ files ↔ ∃ way c, p = j.source.joinAll way ∧
        d.look (start ++ way) = some (some c) ∧ handledBy Kind.all p = true ∧
        excludedBy? rules (way.map .name) = none) ∧
      d' = j.copied projects files first ∧
      (j.records projects files first).map Prod.fst = files ∧
      j.Faithful d d' projects (j.records projects files first) o := by
  obtain ⟨first, start, b, projects, files, hc, rfl, rfl⟩ := (run_eq_ok ht).mp h
  obtain ⟨rules, hrules, hfiles⟩ := hc.files_eq ht
  refine ⟨first, start, rules, projects, files, hc.dirs, hc.plan,
    Disk.resolveFrom_of_target hc.named hc.source.follow, hrules, fun p => ?_,
    rfl, records_paths j projects files first, hc.faithful ht⟩
  rw [hfiles, mem_chosen ht hc.source, hignore]
  constructor
  · rintro ⟨way, hway, rfl, hkind, hpass⟩
    obtain ⟨-, -, c, hfile⟩ := hc.source.way_spec ht hway
    exact ⟨way, c, rfl, hfile, hkind, hpass⟩
  · rintro ⟨way, c, rfl, hfile, hkind, hpass⟩
    exact ⟨way, ht.mem_waysBelow.mpr ⟨⟨c, hfile⟩, admitted_of_not_excluded hrules hpass⟩, rfl,
      hkind, hpass⟩

/-- A tree in which a directory stands where a copy is to go. -/
def crowdedTree : Disk where
  root := .dir [("src".toList, .dir [
    ("a.cs".toList, .file (Text.toBytes "\uFEFFx(); // y".toList)),
    ("b.py".toList, .file (Text.toBytes "pass".toList)),
    ("bin".toList, .dir [("c.cs".toList, .file (Text.toBytes "z();".toList))]),
    ("out".toList, .dir [("b.txt".toList, .dir [])])])]

def crowdedJob : Job where
  source := .ofString "src"
  destination := .ofString "src/out"

theorem run_faithful_when_crowded :
    ∃ projects rs, crowdedJob.Faithful crowdedTree (crowdedJob.run crowdedTree).1 projects rs
      { total := 2
        succeeded := 1
        failed := 1
        errors := [("Error processing src/b.py: I/O error on src/out/b.txt: " ++
          "Is a directory (os error 21)").toList] } := by
  have htidy : crowdedTree.Tidy := by decide
  have hrun := run_eq_of_outcome (j := crowdedJob) (d := crowdedTree)
    (o :=
      { total := 2
        succeeded := 1
        failed := 1
        errors := [("Error processing src/b.py: I/O error on src/out/b.txt: " ++
          "Is a directory (os error 21)").toList] })
    (by decide +kernel)
  obtain ⟨first, -, -, projects, files, -, -, -, -, -, -, -, hfaithful⟩ :=
    run_faithful htidy rfl hrun
  exact ⟨projects, _, hfaithful⟩

end CleanCopy.Job
