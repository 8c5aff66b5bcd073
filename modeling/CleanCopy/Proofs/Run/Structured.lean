import CleanCopy.Proofs.Run.Faithful
import CleanCopy.Proofs.Run.Rerun

namespace CleanCopy

open CleanCopy.Path

/-- Two paths in one directory, with names that differ in nothing but what follows the last dot. -/
def Path.SharesStem (p q : Path) : Prop :=
  p.components.dropLast = q.components.dropLast ∧ p.stem? = q.stem?

instance (p q : Path) : Decidable (p.SharesStem q) := inferInstanceAs (Decidable (_ ∧ _))

variable {source dest : Path} {ms ls : List Text} {m l : Text}

theorem copyOf_eq_iff : copyOf m = copyOf l ↔ stemOf m = stemOf l :=
  ⟨List.append_cancel_right, fun h => by rw [copyOf, copyOf, h]⟩

theorem map_name_eq_iff : ms.map Component.name = ls.map .name ↔ ms = ls :=
  (List.map_injective_iff.mpr fun _ _ => Component.name.inj).eq_iff

theorem sharesStem_joinAll_iff (hms : ∀ n ∈ ms, n.IsName) (hm : m.IsName) (hls : ∀ n ∈ ls, n.IsName)
    (hl : l.IsName) : (source.joinAll (ms ++ [m])).SharesStem (source.joinAll (ls ++ [l])) ↔
      ms = ls ∧ stemOf m = stemOf l := by
  have hstem {ms : List Text} {m : Text} (hm : m.IsName) :
      (source.joinAll (ms ++ [m])).stem? = some (stemOf m) := by
    rw [stem?, joinAll_concat, fileName?_join hm]
    rfl
  have hdir {ms : List Text} {m : Text} (hms : ∀ n ∈ ms, n.IsName) (hm : m.IsName) :
      (source.joinAll (ms ++ [m])).components.dropLast = source.components ++ ms.map .name := by
    rw [components_joinAll (isName_concat hms hm), List.map_append, List.map_singleton,
      ← List.append_assoc, List.dropLast_concat]
  rw [SharesStem, hstem hm, hstem hl, hdir hms hm, hdir hls hl, List.append_cancel_left_eq,
    map_name_eq_iff, Option.some_inj]

namespace Layout

theorem components_structured (hms : ∀ n ∈ ms, n.IsName) (hm : m.IsName) (projects : Projects) :
    (destination .structured projects source dest (source.joinAll (ms ++ [m]))).components =
      dest.components ++ (ms ++ [copyOf m]).map .name := by
  rw [destination_structured hms hm, ← joinAll_concat,
    components_joinAll (isName_concat hms (isName_copyOf hm))]

end Layout

namespace Job

variable {j : Job} {projects : Projects} {files : List Path} {d d' first : Disk} {o : Outcome}
  {p q : Path} {start b : Place}

section course
variable (h : j.Course d first start b projects files) (ht : d.Tidy)
include h ht

variable (hlayout : j.settings.output.layout = .structured)
include hlayout

theorem Course.destination_eq_iff (hp : p ∈ files) (hq : q ∈ files) :
    (j.destinationOf projects p).components = (j.destinationOf projects q).components ↔
      p.SharesStem q := by
  obtain ⟨ms, m, rfl, hms, hm⟩ := h.exists_way ht hp
  obtain ⟨ls, l, rfl, hls, hl⟩ := h.exists_way ht hq
  rw [destinationOf, destinationOf, hlayout, Layout.components_structured hms hm,
    Layout.components_structured hls hl, List.append_cancel_left_eq, map_name_eq_iff,
    sharesStem_joinAll_iff hms hm hls hl, ← copyOf_eq_iff]
  exact List.append_singleton_inj

/-- Each copy has its place below the destination, the way that its source has it. -/
theorem Course.exists_place : ∃ place, j.AllReady projects first place files first ∧
    ∀ p ∈ files, ∀ q ∈ files, place p = place q → p.SharesStem q := by
  have hlands : ∀ p ∈ files, ∃ x, first.Lands (j.destinationOf projects p) x ∧ x.IsCopy ∧
      ∃ ms m, p = j.source.joinAll (ms ++ [m]) ∧ (∀ n ∈ ms, n.IsName) ∧ m.IsName ∧
        x = b ++ ms ++ [copyOf m] := by
    intro p hp
    obtain ⟨ms, m, rfl, hms, hm⟩ := h.exists_way ht hp
    refine ⟨_, ?_, isCopy_concat _ _, ms, m, rfl, hms, hm, rfl⟩
    rw [destinationOf, hlayout, Layout.destination_structured hms hm]
    exact .below h.destination hms (isName_copyOf hm)
  obtain ⟨place, hready, hway⟩ := h.ready_at ht hlands
  refine ⟨place, hready, fun p hp q hq heq => ?_⟩
  obtain ⟨ms, m, hp', hms, hm, hx⟩ := hway p hp
  obtain ⟨ls, l, hq', hls, hl, hy⟩ := hway q hq
  rw [hx, hy, List.append_assoc, List.append_assoc, List.append_cancel_left_eq] at heq
  obtain ⟨hdir, hcopy⟩ := List.append_singleton_inj.mp heq
  rw [hp', hq', sharesStem_joinAll_iff hms hm hls hl]
  exact ⟨hdir, copyOf_eq_iff.mp hcopy⟩

/-- Of the files that share a stem, the last one that is copied is the one whose copy stays. -/
theorem Course.bytes_of_last_of_stem (hr : (p, .ok ()) ∈ j.records projects files first)
    (hlast : ∀ q, (q, .ok ()) ∈ j.records projects files first → p.SharesStem q →
      p.compare q ≠ .lt) :
    ∃ k content, kindOf p = .ok k ∧ d.textOf p = .ok content ∧
      (j.copied projects files first).bytesFrom (j.copied projects files first).here
        (j.destinationOf projects p) =
        .ok (k.scrub j.settings.scrub ((Text.after? ['\uFEFF'] content).getD content)).toBytes := by
  obtain ⟨before, later, hrs⟩ := List.append_of_mem hr
  obtain ⟨place, hready, hplace⟩ := h.exists_place ht hlayout
  have hfaithful := h.faithful ht
  refine hfaithful.copied before p later hrs fun ⟨q, r⟩ hlater hok heq => ?_
  obtain rfl : r = .ok () := hok
  have hq : (q, .ok ()) ∈ j.records projects files first := by
    rw [hrs]
    exact List.mem_append_right _ (List.mem_cons_of_mem _ hlater)
  rw [hready.resolve_of_copied (h.tidy ht) hq, hready.resolve_of_copied (h.tidy ht) hr] at heq
  have hsame := Target.node.inj (Except.ok.inj heq)
  have hordered := hfaithful.ordered
  rw [hrs] at hordered
  refine hlast q hq (hplace p (mem_of_mem_records hr) q (mem_of_mem_records hq) hsame.symm) ?_
  exact (List.pairwise_cons.mp (List.pairwise_append.mp hordered).2.1).1 _ hlater

end course

/-- Copies in a structured layout go to the same path just if their sources share a stem, and of
those the last one in order stays, scrubbed. -/
theorem run_structured (ht : d.Tidy) (hlayout : j.settings.output.layout = .structured)
    (h : j.run d = (d', .ok o)) :
    ∃ first projects files,
      d.makeDirs j.destination = (first, .ok ()) ∧ j.plan first = .ok (projects, files) ∧
      (∀ p ∈ files, ∀ q ∈ files,
        (j.destinationOf projects p).components = (j.destinationOf projects q).components ↔
          p.SharesStem q) ∧
      ∀ p, (p, .ok ()) ∈ j.records projects files first →
        (∀ q, (q, .ok ()) ∈ j.records projects files first → p.SharesStem q → p.compare q ≠ .lt) →
        ∃ k content, kindOf p = .ok k ∧ d.textOf p = .ok content ∧
          d'.bytesFrom d'.here (j.destinationOf projects p) =
            .ok (k.scrub j.settings.scrub ((Text.after? ['\uFEFF'] content).getD content)).toBytes := by
  obtain ⟨first, start, b, projects, files, hc, rfl, rfl⟩ := (run_eq_ok ht).mp h
  exact ⟨first, projects, files, hc.dirs, hc.plan,
    fun p hp q hq => hc.destination_eq_iff ht hlayout hp hq,
    fun p hr hlast => hc.bytes_of_last_of_stem ht hlayout hr hlast⟩

theorem run_structured_when_colliding :
    let p := ofString "src/a.cs"
    let q := ofString "src/a.py"
    let d' := (collidingJob.run collidingTree).1
    collidingTree.Tidy ∧ collidingJob.settings.output.layout = .structured ∧
      (collidingJob.destinationOf {} p).components = (collidingJob.destinationOf {} q).components ∧
      ∃ k content, kindOf q = .ok k ∧ collidingTree.textOf q = .ok content ∧
        d'.bytesFrom d'.here (collidingJob.destinationOf {} q) = .ok
          (k.scrub collidingJob.settings.scrub
            ((Text.after? ['\uFEFF'] content).getD content)).toBytes := by
  intro p q d'
  have htidy : collidingTree.Tidy := by decide
  have hrun := run_eq_of_outcome (j := collidingJob) (d := collidingTree)
    (o := { total := 2, succeeded := 2 }) (by decide +kernel)
  obtain ⟨first, projects, files, hdirs, hplan, hsame, hlast⟩ := run_structured htidy rfl hrun
  have hfirst : collidingTree.makeDirs collidingJob.destination = (collidingTree, .ok ()) := rfl
  have hfiles : collidingJob.plan collidingTree = .ok ({}, [p, q]) := by decide +kernel
  have hrecords : collidingJob.records {} [p, q] collidingTree = [(p, .ok ()), (q, .ok ())] := by
    decide +kernel
  obtain rfl := (Prod.mk.inj (hdirs.symm.trans hfirst)).1
  obtain ⟨rfl, rfl⟩ := Prod.mk.inj (Except.ok.inj (hplan.symm.trans hfiles))
  rw [hrecords] at hlast
  refine ⟨htidy, rfl, (hsame p (by simp) q (by simp)).mpr (by decide +kernel), ?_⟩
  refine hlast q (by simp) fun r hr _ => ?_
  rcases List.mem_pair.mp hr with hr | hr
  · obtain rfl := (Prod.mk.inj hr).1
    decide +kernel
  · obtain rfl := (Prod.mk.inj hr).1
    decide +kernel

/-- Two files are counted as copied, and there is one copy. -/
theorem run_structured_loses_copy :
    let p := ofString "src/a.cs"
    let q := ofString "src/a.py"
    let (d', outcome) := collidingJob.run collidingTree
    collidingJob.settings.output.layout = .structured ∧
      (collidingJob.plan collidingTree).toOption = some ({}, [p, q]) ∧ p ≠ q ∧
      (collidingJob.destinationOf {} p).components = (collidingJob.destinationOf {} q).components ∧
      outcome.toOption = some { total := 2, succeeded := 2 } ∧
      (copyText collidingJob.settings.scrub collidingTree p).toOption = some "x();".toList ∧
      (d'.textOf (collidingJob.destinationOf {} p)).toOption = some "pass".toList := by
  decide +kernel

end Job

end CleanCopy
