import CleanCopy.Proofs.Files.Named
import CleanCopy.Proofs.Project.Name
import CleanCopy.Proofs.Run.Rerun

namespace CleanCopy

open CleanCopy.Path

/-- A path that goes on from a directory by names, one or more of them. -/
def Path.Below (p dir : Path) : Prop :=
  ∃ ns : List Text, ns ≠ [] ∧ (∀ n ∈ ns, n.IsName) ∧ p.components = dir.components ++ ns.map .name

variable {p source dest : Path} {ms ns : List Text} {m n s t : Text} {projects : Projects}

/-- Sanitizing makes no new points. -/
theorem sanitize_eq_iff (hs : ∀ c ∈ s, c = '.') : sanitize t = s ↔ t = s := by
  induction t generalizing s with
  | nil => exact Iff.rfl
  | cons c cs ih =>
    cases s with
    | nil => exact iff_of_false (List.cons_ne_nil _ _) (List.cons_ne_nil _ _)
    | cons e es =>
      obtain ⟨he, hes⟩ := List.forall_mem_cons.mp hs
      have hhead : (if c = '/' || c = '\\' then '_' else c) = e ↔ c = e := by
        subst he
        split
        · rename_i hc
          rcases Bool.or_eq_true_iff.mp hc with hc | hc <;> rw [of_decide_eq_true hc] <;> decide
        · exact Iff.rfl
      rw [sanitize, List.map_cons, List.cons.injEq, List.cons.injEq, hhead]
      exact and_congr_right fun _ => ih hes

theorem sanitize_eq_here_iff : sanitize t = ['.'] ↔ t = ['.'] :=
  sanitize_eq_iff (by simp)

theorem sanitize_eq_up_iff : sanitize t = ['.', '.'] ↔ t = ['.', '.'] :=
  sanitize_eq_iff (by simp)

theorem isName_sanitize_iff (hne : t ≠ []) : (sanitize t).IsName ↔ t ≠ ['.'] ∧ t ≠ ['.', '.'] := by
  constructor
  · intro h
    exact ⟨fun ht => h.ne_here (sanitize_eq_here_iff.mpr ht),
      fun ht => h.ne_up (sanitize_eq_up_iff.mpr ht)⟩
  · rintro ⟨hhere, hup⟩
    exact ⟨fun hs => hne (List.map_eq_nil_iff.mp hs), notMem_sanitize t,
      fun hs => hhere (sanitize_eq_here_iff.mp hs), fun hs => hup (sanitize_eq_up_iff.mp hs)⟩

namespace Path

theorem below_joinAll_join (hns : ∀ n ∈ ns, n.IsName) (hn : n.IsName) :
    ((dest.joinAll ns).join ⟨n⟩).Below dest := by
  refine ⟨ns ++ [n], by simp, isName_concat hns hn, ?_⟩
  rw [← joinAll_concat, components_joinAll (isName_concat hns hn)]

theorem not_below_of_components {dir : Path} {c : Component} {cs : List Component}
    (h : p.components = dir.components ++ c :: cs) (hc : ∀ n, c ≠ .name n) : ¬ p.Below dir := by
  rintro ⟨ns, hne, -, hns⟩
  obtain ⟨n, ms, rfl⟩ := List.exists_cons_of_ne_nil hne
  rw [h, List.append_cancel_left_eq] at hns
  exact hc n (List.cons.inj hns).1

/-- A stretch that is no name leads out of a directory when it leads up, and a point makes a lead
where there was none. -/
theorem below_join_join_iff (hs : '/' ∉ s) (hname : ¬ s.IsName) (hn : n.IsName) :
    ((dest.join ⟨s⟩).join ⟨n⟩).Below dest ↔ s ≠ ['.', '.'] ∧ (s = ['.'] → dest.text ≠ []) := by
  have hcomp := components_join (p := dest.join ⟨s⟩) hn
  have hbelow (h : (dest.join ⟨s⟩).components = dest.components) :
      ((dest.join ⟨s⟩).join ⟨n⟩).Below dest :=
    ⟨[n], List.cons_ne_nil _ _, List.forall_mem_singleton.mpr hn, by rw [hcomp, h]; rfl⟩
  rcases Text.eq_of_not_isName hs hname with rfl | rfl | rfl
  · have hjoin := components_join_of_notMem (p := dest) hs (.inr (by decide))
    exact iff_of_true (hbelow (hjoin.trans (List.append_nil _))) ⟨by decide, nofun⟩
  · by_cases hdest : dest.text = []
    · obtain ⟨t⟩ := dest
      obtain rfl : t = [] := hdest
      exact iff_of_false (not_below_of_components (c := .here) hcomp nofun) fun h => h.2 rfl rfl
    · have hjoin := components_join_of_notMem hs (.inl hdest)
      exact iff_of_true (hbelow (hjoin.trans (List.append_nil _))) ⟨by decide, fun _ => hdest⟩
  · rw [components_join_of_notMem hs (.inr (by decide)), List.append_assoc] at hcomp
    exact iff_of_false (not_below_of_components (c := .up) hcomp nofun) fun h => h.1 rfl

end Path

namespace Layout

theorem destination_below_iff (hms : ∀ n ∈ ms, n.IsName) (hm : m.IsName) (l : Layout) :
    let file := source.joinAll (ms ++ [m])
    (l.destination projects source dest file).Below dest ↔
      (l = .flat → projects.nameFor file ≠ ['.', '.'] ∧
        (projects.nameFor file = ['.'] → dest.text ≠ [])) := by
  intro file
  rcases destination_form hms hm l projects source dest with
    ⟨hflat, ns, s, hns, hs, hdest⟩ | ⟨rfl, hp, hdest⟩
  · rw [hdest]
    refine iff_of_true (below_joinAll_join hns (isName_copy hs)) fun hl => ?_
    have hname := hflat hl
    exact ⟨fun h => hname.ne_up (sanitize_eq_up_iff.mpr h),
      fun h => absurd (sanitize_eq_here_iff.mpr h) hname.ne_here⟩
  · rw [hdest, below_join_join_iff (notMem_sanitize _) hp (isName_copyOf hm), Ne,
      sanitize_eq_up_iff, sanitize_eq_here_iff]
    exact (imp_iff_right rfl).symm

/-- Of all files and all layouts, only the copies of a flat layout can lie outside the destination,
and they do when the project is named by two points, or by one in a destination without a name. -/
theorem destination_inside {d : Disk} {o : SearchOptions} {files : List Path} (hd : d.root.Named)
    (hprojects : d.projectsBelow source = .ok projects) (hfiles : d.filesBelow o source = .ok files)
    (hp : p ∈ files) (l : Layout) (dest : Path) :
    ((sanitize (projects.nameFor p)).IsName ↔
      projects.nameFor p ≠ ['.'] ∧ projects.nameFor p ≠ ['.', '.']) ∧
    ((l.destination projects source dest p).Below dest ↔
      (l = .flat → projects.nameFor p ≠ ['.', '.'] ∧
        (projects.nameFor p = ['.'] → dest.text ≠ []))) := by
  obtain ⟨ms, m, rfl, hms, hm⟩ := Disk.exists_way hd hfiles hp
  exact ⟨isName_sanitize_iff ((Disk.projectsBelow_named hprojects).nameFor _),
    destination_below_iff hms hm l⟩

end Layout

/-- A tree with a project that is named by two points. -/
def climbingTree : Disk where
  root := .dir [("src".toList, .dir [
    ("a.cs".toList, .file (Text.toBytes "x();".toList)),
    ("package.json".toList, .file (Text.toBytes "\x7b\"name\": \"..\"\x7d".toList))])]

def climbingJob : Job where
  source := .ofString "src"
  destination := .ofString "out"
  settings := { output := { layout := .flat } }

namespace Job

theorem destination_inside_when_climbing :
    ∃ projects files, climbingTree.projectsBelow climbingJob.source = .ok projects ∧
      climbingTree.filesBelow {} climbingJob.source = .ok files ∧ ofString "src/a.cs" ∈ files ∧
      ¬ (Layout.flat.destination projects climbingJob.source climbingJob.destination
        (ofString "src/a.cs")).Below climbingJob.destination ∧
      ∀ l, l ≠ Layout.flat → (l.destination projects climbingJob.source climbingJob.destination
        (ofString "src/a.cs")).Below climbingJob.destination := by
  have hprojects : climbingTree.projectsBelow climbingJob.source =
      .ok ⟨[(ofString "src/package.json", "..".toList)]⟩ := by decide +kernel
  have hfiles : climbingTree.filesBelow {} climbingJob.source =
      .ok [ofString "src/a.cs", ofString "src/package.json"] := by decide +kernel
  have hinside (l : Layout) := (Layout.destination_inside (by decide) hprojects hfiles
    (p := ofString "src/a.cs") List.mem_cons_self l climbingJob.destination).2
  refine ⟨_, _, hprojects, hfiles, List.mem_cons_self, fun h => ?_, fun l hl => ?_⟩
  · exact ((hinside .flat).mp h rfl).1 (by decide +kernel)
  · exact (hinside l).mpr fun h => absurd h hl

/-- The copy is written next to the destination. -/
theorem run_climbs :
    let projects : Projects := ⟨[(ofString "src/package.json", "..".toList)]⟩
    let (d', outcome) := climbingJob.run climbingTree
    climbingTree.root.Named ∧ climbingTree.projectsBelow climbingJob.source = .ok projects ∧
      ¬ (sanitize "..".toList).IsName ∧
      (climbingJob.destinationOf projects (ofString "src/a.cs")).components =
        [.name "out".toList, .up, .name "a.txt".toList] ∧
      outcome.toOption = some { total := 1, succeeded := 1 } ∧
      d'.look ["a.txt".toList] = some (some (Text.toBytes "x();".toList)) ∧
      d'.look ["out".toList, "a.txt".toList] = none := by
  decide +kernel

variable {j : Job} {files : List Path} {d d' first : Disk} {o : Outcome} {start b : Place}

theorem Course.exists_place_below (h : j.Course d first start b projects files) (ht : d.Tidy)
    (hup : j.settings.output.layout = .flat → ∀ p ∈ files, projects.nameFor p ≠ ['.', '.']) :
    ∃ place, j.AllReady projects first place files first ∧
      ∀ p ∈ files, ∃ y, y ≠ [] ∧ place p = b ++ y := by
  refine h.ready_at ht (Q := fun _ x => ∃ y, y ≠ [] ∧ x = b ++ y) fun p hp => ?_
  have hflat := fun hl => hup hl p hp
  obtain ⟨ms, m, rfl, hms, hm⟩ := h.exists_way ht hp
  rcases Layout.destination_form hms hm j.settings.output.layout projects j.source
    j.destination with ⟨-, ns, s, hns, hs, hdest⟩ | ⟨hl, hname, hdest⟩
  · rw [destinationOf, hdest]
    exact ⟨_, .below h.destination hns (isName_copy hs), isCopy_concat _ _, ns ++ [_], by simp,
      List.append_assoc ..⟩
  · -- Without a directory of its own the project has the destination for one.
    have hidle : sanitize (projects.nameFor (j.source.joinAll (ms ++ [m]))) = [] ∨
        sanitize (projects.nameFor (j.source.joinAll (ms ++ [m]))) = ['.'] := by
      rcases Text.eq_of_not_isName (notMem_sanitize _) hname with hs | hs | hs
      · exact .inl hs
      · exact .inr hs
      · exact absurd (sanitize_eq_up_iff.mp hs) (hflat hl)
    rw [destinationOf, hdest]
    exact ⟨_, (h.destination.join_here (h.tidy ht) hidle).lands_join (isName_copyOf hm),
      isCopy_concat _ _, [_], List.cons_ne_nil _ _, rfl⟩

/-- A run writes nowhere but below its destination, unless a flat layout meets a project that is
named by two points. -/
theorem run_inside (ht : d.Tidy) (h : j.run d = (d', .ok o)) :
    ∃ first projects files b, d.makeDirs j.destination = (first, .ok ()) ∧
      j.plan first = .ok (projects, files) ∧ first.Enters j.destination b ∧
      ((j.settings.output.layout = .flat → ∀ p ∈ files, projects.nameFor p ≠ ['.', '.']) →
        ∀ x, (∃ c, d.look x = some (some c) ∨ d'.look x = some (some c)) → d'.look x ≠ d.look x →
          ∃ y, y ≠ [] ∧ x = b ++ y) := by
  obtain ⟨first, start, b, projects, files, hc, rfl, rfl⟩ := (run_eq_ok ht).mp h
  refine ⟨first, projects, files, b, hc.dirs, hc.plan, hc.destination, fun hup x hfile hx => ?_⟩
  obtain ⟨place, hready, hplace⟩ := hc.exists_place_below ht hup
  obtain ⟨p, hr, rfl⟩ := hc.exists_record ht hready hfile hx
  exact hplace p (mem_of_mem_records hr)

end Job

end CleanCopy
