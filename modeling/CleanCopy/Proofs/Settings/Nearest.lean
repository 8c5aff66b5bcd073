import CleanCopy.Proofs.Files.Named
import CleanCopy.Proofs.Text.Parent
import CleanCopy.Settings.Nearest

namespace CleanCopy

open CleanCopy.Path

namespace Disk

variable {d : Disk} {files : List Path} {file start : Path} {s : Settings} {x : Place}

def settingsFiles (d : Disk) (start : Path) : List Path :=
  (d.settingsDirs start).map fun dir => dir.join ⟨settingsFileName⟩

/-- The settings that a file declares; nothing when it cannot be read or has a fault. -/
def settingsOf? (d : Disk) (file : Path) : Option Settings := (d.settingsOf file).toOption

theorem nearestSettings_eq (d : Disk) (start : Path) :
    d.nearestSettings start = ((d.settingsFiles start).findSome? d.settingsOf?).getD {} := by
  rw [nearestSettings, settingsFiles, List.findSome?_map]
  rfl

/-- The files lie in the directory, without links on the way to it, and in the ten above it. -/
theorem settingsFiles_eq (hnamed : d.root.Named) (h : d.isDir start = true) :
    ∃ x, d.resolve start = .ok (.node x) ∧ d.settingsFiles start =
      (x.inits.reverse.take 11).map fun y => Place.path (y ++ [settingsFileName]) := by
  obtain ⟨hne, x, hx⟩ := isDir_iff.mp h
  obtain ⟨es, hes⟩ := Node.sight_eq_dir.mp hx.dir
  have hnames := hnamed.isName_of_get? hes
  have hresolve : d.resolve start = .ok (.node x) := by
    rw [resolve, resolveFrom, List.isEmpty_eq_false_iff.mpr hne]
    exact hx.resolve
  have hcanonical : d.canonical? start = some x.path := by
    rw [canonical?, hresolve]
    exact congrArg (fun t => some (Path.mk t)) (Place.text_path hnames).symm
  refine ⟨x, hresolve, ?_⟩
  rw [settingsFiles, settingsDirs, hcanonical, Option.getD_some, Place.ancestors_path hnames,
    List.map_map]
  exact List.map_congr_left fun y _ => (Place.path_concat y _).symm

theorem holds_of_settingsOf? (h : d.settingsOf? file = some s) : d.holds file = true := by
  rw [settingsOf?, settingsOf, read, textOf, bytesFrom] at h
  rw [holds, node]
  cases hn : d.nodeFrom d.here file with
  | ok n => rfl
  | error e =>
    rw [hn] at h
    cases h

theorem settingsOf?_of_not_holds (h : d.holds file = false) : d.settingsOf? file = none := by
  rw [Option.eq_none_iff_forall_not_mem]
  intro s hs
  rw [holds_of_settingsOf? hs] at h
  cases h

/-- The settings by the rule that the nearest file that is there decides: what it declares, and the
defaults when it has a fault. -/
def settingsOfNearest (d : Disk) (files : List Path) : Settings :=
  ((files.find? d.holds).bind d.settingsOf?).getD {}

/-- The nearest file that is there has a fault, and the first one without a fault behind it declares
settings. -/
def Overrules (d : Disk) (files : List Path) (s : Settings) : Prop :=
  ∃ before file between other rest, files = before ++ file :: between ++ other :: rest ∧
    (∀ f ∈ before, d.holds f = false) ∧ d.holds file = true ∧
    (∀ f ∈ file :: between, d.settingsOf? f = none) ∧ d.settingsOf? other = some s

theorem Overrules.findSome?_eq (h : d.Overrules files s) : files.findSome? d.settingsOf? = some s := by
  obtain ⟨before, file, between, other, rest, rfl, hbefore, -, hfault, hs⟩ := h
  refine List.findSome?_eq_some_iff.mpr ⟨before ++ file :: between, other, rest, rfl, hs, fun f hf => ?_⟩
  rcases List.mem_append.mp hf with hf | hf
  · exact settingsOf?_of_not_holds (hbefore f hf)
  · exact hfault f hf

theorem Overrules.settingsOfNearest_eq (h : d.Overrules files s) : d.settingsOfNearest files = {} := by
  obtain ⟨before, file, between, other, rest, rfl, hbefore, hfile, hfault, -⟩ := h
  have hfind : (before ++ file :: between ++ other :: rest).find? d.holds = some file := by
    rw [List.append_assoc]
    refine List.find?_eq_some_iff_append.mpr ⟨hfile, before, between ++ other :: rest, rfl, ?_⟩
    exact fun f hf => by rw [hbefore f hf]; rfl
  rw [settingsOfNearest, hfind, Option.bind_some, hfault file List.mem_cons_self]
  rfl

/-- The first file without a fault is the nearest one, or it overrules that. -/
theorem findSome?_eq_or_overrules (d : Disk) (files : List Path) :
    files.findSome? d.settingsOf? = (files.find? d.holds).bind d.settingsOf? ∨
      ∃ s, d.Overrules files s := by
  cases hfind : files.find? d.holds with
  | none =>
    refine .inl (List.findSome?_eq_none_iff.mpr fun f hf => settingsOf?_of_not_holds ?_)
    simpa using List.find?_eq_none.mp hfind f hf
  | some file =>
    obtain ⟨hfile, before, rest, rfl, hbefore⟩ := List.find?_eq_some_iff_append.mp hfind
    have hfree : ∀ f ∈ before, d.holds f = false := fun f hf => by simpa using hbefore f hf
    have hfirst : before.findSome? d.settingsOf? = none :=
      List.findSome?_eq_none_iff.mpr fun f hf => settingsOf?_of_not_holds (hfree f hf)
    rw [List.findSome?_append, hfirst, Option.none_or, Option.bind_some]
    cases hs : d.settingsOf? file with
    | some s => exact .inl (by rw [List.findSome?_cons, hs])
    | none =>
      rw [List.findSome?_cons, hs]
      cases hrest : rest.findSome? d.settingsOf? with
      | none => exact .inl rfl
      | some s =>
        obtain ⟨between, other, last, rfl, hother, hbetween⟩ := List.findSome?_eq_some_iff.mp hrest
        exact .inr ⟨s, before, file, between, other, last, by simp, hfree, hfile,
          List.forall_mem_cons.mpr ⟨hs, hbetween⟩, hother⟩

/-- Settings are looked for in a directory and the ten above it. The nearest file that is there
decides, unless it has a fault and one further up has none: then that one does. -/
theorem nearestSettings_exact (hnamed : d.root.Named) (h : d.isDir start = true) :
    ∃ x, d.resolve start = .ok (.node x) ∧
      let files := (x.inits.reverse.take 11).map fun y => Place.path (y ++ [settingsFileName])
      (∀ s, d.Overrules files s → d.nearestSettings start = s) ∧
      (d.nearestSettings start = d.settingsOfNearest files ↔ ∀ s, d.Overrules files s → s = {}) := by
  obtain ⟨x, hx, hfiles⟩ := settingsFiles_eq hnamed h
  refine ⟨x, hx, ?_⟩
  rw [nearestSettings_eq, ← hfiles]
  have hover (s : Settings) (hs : d.Overrules (d.settingsFiles start) s) :
      ((d.settingsFiles start).findSome? d.settingsOf?).getD {} = s := by
    rw [hs.findSome?_eq]
    rfl
  refine ⟨hover, fun heq s hs => ?_, fun hall => ?_⟩
  · rw [← hover s hs, heq, hs.settingsOfNearest_eq]
  · rcases findSome?_eq_or_overrules d (d.settingsFiles start) with hsame | ⟨s, hs⟩
    · rw [settingsOfNearest, hsame]
    · rw [hover s hs, hs.settingsOfNearest_eq, hall s hs]

def soundFile : Node := .file (Text.toBytes "[scrub]\nstrip_docs = true\n".toList)

def faultyFile : Node := .file (Text.toBytes "strip_docs = [true".toList)

/-- A tree with settings in its root, and with a faulty file of them eleven directories further down. -/
def deepTree : Disk where
  root := .dir [(settingsFileName, soundFile), ("d".toList,
    (List.range 10).foldr (fun _ n => .dir [("d".toList, n)]) (.dir [(settingsFileName, faultyFile)]))]

theorem nearestSettings_exact_out_of_reach :
    let start := ofString "d/d/d/d/d/d/d/d/d/d/d"
    deepTree.root.Named ∧ deepTree.isDir start = true ∧
      deepTree.settingsOf? (ofString "/.srcmirror.toml") = some { scrub := { stripDocs := true } } ∧
      deepTree.nearestSettings start = {} := by
  intro start
  have hnamed : deepTree.root.Named := by decide +kernel
  have hstart : deepTree.isDir start = true := by decide +kernel
  refine ⟨hnamed, hstart, by decide +kernel, ?_⟩
  obtain ⟨x, hx, -, hiff⟩ := nearestSettings_exact hnamed hstart
  have hplace : deepTree.resolve start = .ok (.node (List.replicate 11 "d".toList)) := by
    decide +kernel
  obtain rfl := Target.node.inj (Except.ok.inj (hx.symm.trans hplace))
  have hnone : ((((List.replicate 11 "d".toList).inits.reverse.take 11).map fun y =>
      Place.path (y ++ [settingsFileName])).findSome? deepTree.settingsOf?) = none := by
    decide +kernel
  rw [hiff.mpr fun s hs => by cases hs.findSome?_eq.symm.trans hnone]
  decide +kernel

/-- A tree with settings in its root and a faulty file of them in a directory there. -/
def faultyTree : Disk where
  root := .dir [(settingsFileName, soundFile), ("a".toList, .dir [(settingsFileName, faultyFile)])]

/-- A nearer file with a fault is passed over. -/
theorem nearestSettings_overruled :
    let start := ofString "a"
    let near := ofString "/a/.srcmirror.toml"
    let files := [near, ofString "/.srcmirror.toml"]
    faultyTree.settingsFiles start = files ∧ faultyTree.holds near = true ∧
      faultyTree.settingsOf? near = none ∧ faultyTree.settingsOfNearest files = {} ∧
      faultyTree.nearestSettings start = { scrub := { stripDocs := true } } := by
  decide +kernel

end Disk

end CleanCopy
