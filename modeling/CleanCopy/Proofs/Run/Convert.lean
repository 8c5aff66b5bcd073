import CleanCopy.Proofs.Run.Route
import CleanCopy.Proofs.Run.Start

namespace CleanCopy

open CleanCopy.Path

variable {j : Job} {projects : Projects} {files ps : List Path} {d d' : Disk} {o : Outcome} {p : Path}
  {start b : Place} {first : Disk}

namespace Job

section records
variable {place : Path → Place} {before later : List Record} {t : Text}

/-- Each record is what came of its file on some disk on which the file was ready. -/
theorem AllReady.mem_records (h : j.AllReady projects first place ps d) (ht : d.Tidy) {r : Record}
    (hr : r ∈ j.records projects ps d) :
    ∃ e, r.2 = (j.copyFile projects r.1 e).2 ∧
      copyText j.settings.scrub e r.1 = copyText j.settings.scrub first r.1 := by
  induction ps generalizing d with
  | nil => cases hr
  | cons p ps ih =>
    obtain ⟨⟨hready, htext⟩, hps⟩ := List.forall_mem_cons.mp h
    have hrest : j.AllReady projects first place ps d := hps
    have hstep := copyFile_becomes ht hready htext
    rw [records] at hr
    rcases List.mem_cons.mp hr with rfl | hr
    · exact ⟨d, rfl, htext⟩
    · exact ih (hrest.again ht hstep (wrote_isCopy hready.copy)) (hstep.isTidy ht) hr

theorem AllReady.copyText_of_copied (h : j.AllReady projects first place ps d) (ht : d.Tidy)
    (hr : (p, .ok ()) ∈ j.records projects ps d) :
    ∃ t, copyText j.settings.scrub first p = .ok t := by
  obtain ⟨e, hok, htext⟩ := h.mem_records ht hr
  rw [← htext]
  cases he : copyText j.settings.scrub e p with
  | ok t => exact ⟨t, rfl⟩
  | error err =>
    rw [copyFile] at hok
    simp only [he] at hok
    cases hok

theorem mem_wrote_ok (h : copyText j.settings.scrub first p = .ok t) :
    j.wrote first place (p, .ok ()) = [(place p, t.toBytes)] := by
  rw [wrote, h]
  rfl

theorem eq_ok_of_mem_wrote {r : Record} {w : Place × ByteArray} (h : w ∈ j.wrote first place r) :
    r.2 = .ok () ∧ w.1 = place r.1 := by
  obtain ⟨p, r⟩ := r
  rw [wrote] at h
  split at h
  · cases r with
    | ok u =>
      rw [List.mem_singleton.mp h]
      exact ⟨rfl, rfl⟩
    | error e => cases h
  · cases h

/-- The last copy that goes to a place is what the place holds in the end. -/
theorem AllReady.look_of_last (h : j.AllReady projects first place ps d) (ht : d.Tidy)
    (hrs : j.records projects ps d = before ++ (p, .ok ()) :: later)
    (htext : copyText j.settings.scrub first p = .ok t)
    (hlast : ∀ r ∈ later, r.2 = .ok () → place r.1 ≠ place p) :
    (j.copied projects ps d).look (place p) = some (some t.toBytes) := by
  refine ((h.copied_becomes ht).file _ _).mpr (.inl ?_)
  have hnone : lastWrite (place p) (later.flatMap (j.wrote first place)) = none := by
    by_contra hsome
    obtain ⟨c, hc⟩ := Option.ne_none_iff_exists'.mp hsome
    obtain ⟨r, hr, hw⟩ := List.mem_flatMap.mp (exists_mem_of_lastWrite hc)
    obtain ⟨hok, hplace⟩ := eq_ok_of_mem_wrote hw
    exact hlast r hr hok hplace.symm
  rw [hrs, List.flatMap_append, List.flatMap_cons, mem_wrote_ok htext, lastWrite_append,
    lastWrite_append, hnone]
  simp [lastWrite]

/-- A file that was copied has something at its place. -/
theorem AllReady.resolve_of_copied (h : j.AllReady projects first place ps d) (ht : d.Tidy)
    (hr : (p, .ok ()) ∈ j.records projects ps d) :
    (j.copied projects ps d).resolve (j.destinationOf projects p) = .ok (.node (place p)) := by
  have hbe := h.copied_becomes ht
  have hp : p ∈ ps := mem_of_mem_records hr
  refine (hbe.lands ht (h p hp).1.lands).resolve (hbe.isTidy ht) ?_
  obtain ⟨t, htext⟩ := h.copyText_of_copied ht hr
  have hw : (place p, t.toBytes) ∈ (j.records projects ps d).flatMap (j.wrote first place) := by
    refine List.mem_flatMap.mpr ⟨_, hr, ?_⟩
    rw [mem_wrote_ok htext]
    exact List.mem_singleton.mpr rfl
  obtain ⟨c, hc⟩ := exists_lastWrite hw
  rw [(hbe.file (place p) c).mpr (.inl hc)]
  exact Option.some_ne_none _

end records

/-- What a run that ends well goes through: from `d` to the disk with the destination in it, on
which the files to be copied are chosen. -/
structure Course (j : Job) (d first : Disk) (start b : Place) (projects : Projects)
    (files : List Path) : Prop where
  dirs : d.makeDirs j.destination = (first, .ok ())
  plan : j.plan first = .ok (projects, files)
  named : j.source.text ≠ []
  source : d.Enters j.source start
  destination : first.Enters j.destination b

theorem Starts.exists_course (h : j.Starts d first projects files) (ht : d.Tidy) :
    ∃ start b, j.Course d first start b projects files := by
  obtain ⟨hnamed, start, hstart⟩ := ht.isDir_iff.mp h.source
  obtain ⟨b, hb⟩ := ht.makeDirs_ok h.dirs
  exact ⟨start, b, h.dirs, h.plan, hnamed, hstart, hb⟩

theorem Course.starts (h : j.Course d first start b projects files) (ht : d.Tidy) :
    j.Starts d first projects files :=
  ⟨ht.isDir_iff.mpr ⟨h.named, start, h.source⟩, h.dirs, h.plan⟩

theorem run_eq_ok (ht : d.Tidy) : j.run d = (d', .ok o) ↔
    ∃ first start b projects files, j.Course d first start b projects files ∧
      d' = j.copied projects files first ∧
      o = (j.records projects files first).foldl Outcome.note (.ofTotal files.length) := by
  constructor
  · intro h
    obtain ⟨first, projects, files, hstarts⟩ := run_eq_ok_iff.mp ⟨o, congrArg Prod.snd h⟩
    obtain ⟨start, b, hc⟩ := hstarts.exists_course ht
    obtain ⟨rfl, ho⟩ := Prod.mk.inj (h.symm.trans hstarts.run_eq)
    exact ⟨first, start, b, projects, files, hc, rfl, Except.ok.inj ho⟩
  · rintro ⟨first, start, b, projects, files, hc, rfl, rfl⟩
    exact (hc.starts ht).run_eq

section course
variable (h : j.Course d first start b projects files) (ht : d.Tidy)
include h ht

theorem Course.becomes : d.Becomes [] first := by
  have := ht.makeDirs_becomes j.destination
  rwa [h.dirs] at this

theorem Course.tidy : first.Tidy := (h.becomes ht).isTidy ht

/-- The same files would have been chosen before. -/
theorem Course.plan_before : j.plan d = .ok (projects, files) := by
  rw [← h.plan]
  exact (plan_again (h.becomes ht) areCopies_nil ht h.source h.named).symm

theorem Course.files_eq : ∃ rules, j.settings.exclusion.rules = .ok rules ∧
    files = j.chosen d start rules := plan_eq_ok ht h.source h.named (h.plan_before ht)

theorem Course.handled (hp : p ∈ files) : handledBy Kind.all p = true := by
  obtain ⟨rules, -, rfl⟩ := h.files_eq ht
  obtain ⟨way, -, -, hkind, -⟩ := (mem_chosen ht h.source).mp hp
  exact hkind

theorem Course.isSource (hp : p ∈ files) : d.IsSource p := by
  obtain ⟨rules, -, rfl⟩ := h.files_eq ht
  exact isSource_of_mem_chosen ht h.source hp

theorem Course.ordered : files.Pairwise fun p q => p.compare q = .lt := by
  obtain ⟨rules, -, rfl⟩ := h.files_eq ht
  exact chosen_pairwise ht h.source

theorem Course.textOf (hp : p ∈ files) : first.textOf p = d.textOf p :=
  (h.becomes ht).textOf areCopies_nil ht (h.isSource ht hp)

/-- The way to a file from the source, its name apart. -/
theorem Course.exists_way (hp : p ∈ files) :
    ∃ ms m, p = j.source.joinAll (ms ++ [m]) ∧ (∀ n ∈ ms, n.IsName) ∧ m.IsName := by
  obtain ⟨rules, -, rfl⟩ := h.files_eq ht
  obtain ⟨way, hway, rfl, -, -⟩ := (mem_chosen ht h.source).mp hp
  obtain ⟨hnames, hne, -⟩ := h.source.way_spec ht hway
  obtain ⟨ms, m, rfl⟩ := (List.eq_nil_or_concat' way).resolve_left hne
  exact ⟨ms, m, rfl, fun n hn => hnames n (List.mem_append_left _ hn), hnames m (by simp)⟩

/-- All files are ready when the first of them is copied, at places that may be chosen. -/
theorem Course.ready_at {Q : Path → Place → Prop}
    (hlands : ∀ p ∈ files, ∃ x, first.Lands (j.destinationOf projects p) x ∧ x.IsCopy ∧ Q p x) :
    ∃ place, j.AllReady projects first place files first ∧ ∀ p ∈ files, Q p (place p) := by
  choose! place hplace using hlands
  refine ⟨place, fun p hp => ?_, fun p hp => (hplace p hp).2.2⟩
  have hsource := (h.becomes ht).isSource areCopies_nil ht (h.isSource ht hp)
  exact ⟨⟨hsource, (hplace p hp).1, (hplace p hp).2.1⟩, rfl⟩

theorem Course.exists_ready : ∃ place, j.AllReady projects first place files first := by
  obtain ⟨place, hready, -⟩ := h.ready_at ht (Q := fun _ _ => True) fun p hp => by
    obtain ⟨ms, m, rfl, hms, hm⟩ := h.exists_way ht hp
    obtain ⟨x, hx, hcopy⟩ := j.settings.output.layout.destination_lands (h.tidy ht) h.destination
      hms hm projects
    exact ⟨x, hx, hcopy, trivial⟩
  exact ⟨place, hready⟩

end course

end Job

end CleanCopy
