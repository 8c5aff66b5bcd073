import CleanCopy.Proofs.Files.Graft
import CleanCopy.Proofs.Run.Convert
import CleanCopy.Proofs.Run.Setup

namespace CleanCopy

open CleanCopy.Path

def Outcome.counts (o : Outcome) : Nat × Nat × Nat := (o.total, o.succeeded, o.failed)

namespace Job

variable {j : Job} {d e first : Disk} {projects : Projects} {tree out new : Node}
  {start b way : Place} {c : ByteArray} {o : ScrubOptions}

theorem copyText_congr {p q : Path} (ht : d.textOf p = e.textOf q) (hn : p.fileName? = q.fileName?) :
    (copyText o d p).toOption = (copyText o e q).toOption := by
  cases h : e.textOf q with
  | error cause =>
    rw [copyText_of_error (ht.trans h), copyText_of_error h]
    rfl
  | ok t =>
    have hread : readSource d p = readSource e q := by
      rw [readSource, readSource, Disk.read, Disk.read, ht, h]
      rfl
    have hscrub (t : Text) : (scrub o p t).toOption = (scrub o q t).toOption := by
      rw [scrub, scrub, kindOf, kindOf, hn]
      cases q.fileName?.bind Kind.ofFileName? <;> rfl
    rw [copyText, copyText, hread]
    cases readSource e q with
    | error err => rfl
    | ok t => exact hscrub t

/-- The files of a tree lie below the source of a job, and none of them at or below some place. -/
structure Offers (j : Job) (first : Disk) (start b : Place) (tree : Node) : Prop where
  reaches : first.Reaches j.source start
  files : ∀ way c, tree.look way = some (some c) →
    first.root.look (start ++ way) = some (some c) ∧ ¬ b <+: start ++ way

/-- What a run has come to whose copies are the files of a tree at the destination. -/
structure Stage (j : Job) (first : Disk) (b : Place) (out : Node) (e : Disk) : Prop where
  grows : first.Extends e
  grafts : first.Grafts b out e
  hosts : e.Hosts j.destination b out

theorem Stage.textOf (h : j.Stage first b out e) (ho : j.Offers first start b tree)
    (hway : ∀ n ∈ way, n.IsName) (hne : way ≠ []) (hc : tree.look way = some (some c)) :
    e.textOf (j.source.joinAll way) =
      match Text.ofBytes? c with
      | some t => .ok t
      | none => .error .notText := by
  obtain ⟨hfirst, hoff⟩ := ho.files way c hc
  rw [Node.look_eq_sight, ← h.grafts.off _ hoff, ← Node.look_eq_sight] at hfirst
  exact (h.grows.reaches ho.reaches).textOf_joinAll hway hne hfirst

section file
variable (h : j.Stage first b out e) (hlayout : j.settings.output.layout = .structured)
  {ms : List Text} {m : Text} (hms : ∀ n ∈ ms, n.IsName) (hm : m.IsName)
include h

theorem Stage.copyFile_of_none {p : Path}
    (ht : (copyText j.settings.scrub e p).toOption = none) :
    j.Stage first b out (j.copyFile projects p e).1 ∧ (j.copyFile projects p e).2.isOk = false := by
  rw [copyFile]
  cases hc : copyText j.settings.scrub e p with
  | ok t =>
    rw [hc] at ht
    cases ht
  | error err => exact ⟨h, rfl⟩

include hlayout hms hm

theorem Stage.copyFile_of_some {t : Text}
    (ht : (copyText j.settings.scrub e (j.source.joinAll (ms ++ [m]))).toOption = some t) :
    ∃ new r, (Disk.ofTree out).writeWithParents ((joinAll ⟨[]⟩ ms).join ⟨copyOf m⟩) t =
        (Disk.ofTree new, r) ∧
      j.Stage first b new (j.copyFile projects (j.source.joinAll (ms ++ [m])) e).1 ∧
      (j.copyFile projects (j.source.joinAll (ms ++ [m])) e).2.isOk = r.isOk := by
  have hgrows := j.copyFile_extends projects (j.source.joinAll (ms ++ [m])) e
  obtain ⟨f, new, r, r', hd, hl, hg, hr⟩ := h.hosts.writeWithParents hms (isName_copyOf hm) t
  have hcopy : j.copyFile projects (j.source.joinAll (ms ++ [m])) e = (f, r) := by
    rw [copyFile, destinationOf, hlayout, Layout.destination_structured hms hm, ← hd]
    cases hc : copyText j.settings.scrub e (j.source.joinAll (ms ++ [m])) with
    | error err =>
      rw [hc] at ht
      cases ht
    | ok t' =>
      rw [hc] at ht
      rw [Option.some.inj ht]
  rw [hcopy] at hgrows ⊢
  exact ⟨new, r', hl, ⟨h.grows.trans hgrows, h.grafts.trans hg,
    h.hosts.of_writeWithParents hms (isName_copyOf hm) hg hl⟩, hr⟩

end file

section two
variable {j₁ j₂ : Job} {first₁ first₂ e₁ e₂ : Disk} {start₁ start₂ b₁ b₂ : Place}
  {ways : List Place} (projects₁ projects₂ : Projects)
  (hscrub : j₁.settings.scrub = j₂.settings.scrub)
  (hlayout₁ : j₁.settings.output.layout = .structured)
  (hlayout₂ : j₂.settings.output.layout = .structured)
  (ho₁ : j₁.Offers first₁ start₁ b₁ tree) (ho₂ : j₂.Offers first₂ start₂ b₂ tree)
include hscrub hlayout₁ hlayout₂ ho₁ ho₂

/-- Copies of one file in two places come to the same, and the trees at the destinations stay
equal. -/
theorem Stage.copyFile_alike (h₁ : j₁.Stage first₁ b₁ out e₁) (h₂ : j₂.Stage first₂ b₂ out e₂)
    (hway : ∀ n ∈ way, n.IsName) (hne : way ≠ []) (hc : tree.look way = some (some c)) :
    ∃ new, j₁.Stage first₁ b₁ new (j₁.copyFile projects₁ (j₁.source.joinAll way) e₁).1 ∧
      j₂.Stage first₂ b₂ new (j₂.copyFile projects₂ (j₂.source.joinAll way) e₂).1 ∧
      (j₁.copyFile projects₁ (j₁.source.joinAll way) e₁).2.isOk =
        (j₂.copyFile projects₂ (j₂.source.joinAll way) e₂).2.isOk := by
  have htext : (copyText j₁.settings.scrub e₁ (j₁.source.joinAll way)).toOption =
      (copyText j₂.settings.scrub e₂ (j₂.source.joinAll way)).toOption := by
    rw [hscrub]
    exact copyText_congr ((h₁.textOf ho₁ hway hne hc).trans (h₂.textOf ho₂ hway hne hc).symm)
      ((fileName?_joinAll hway hne).trans (fileName?_joinAll hway hne).symm)
  cases ht : (copyText j₂.settings.scrub e₂ (j₂.source.joinAll way)).toOption with
  | none =>
    obtain ⟨hs₁, hr₁⟩ := h₁.copyFile_of_none (htext.trans ht)
    obtain ⟨hs₂, hr₂⟩ := h₂.copyFile_of_none ht
    exact ⟨out, hs₁, hs₂, hr₁.trans hr₂.symm⟩
  | some t =>
    obtain ⟨ms, m, rfl⟩ := (List.eq_nil_or_concat' way).resolve_left hne
    have hms : ∀ n ∈ ms, n.IsName := fun n hn => hway n (List.mem_append_left _ hn)
    have hm : m.IsName := hway m (by simp)
    obtain ⟨new, r, hl₁, hs₁, hr₁⟩ := h₁.copyFile_of_some hlayout₁ hms hm (htext.trans ht)
    obtain ⟨new', r', hl₂, hs₂, hr₂⟩ := h₂.copyFile_of_some hlayout₂ hms hm ht
    obtain ⟨hnew, rfl⟩ := Prod.mk.inj (hl₁.symm.trans hl₂)
    obtain rfl : new = new' := congrArg Disk.root hnew
    exact ⟨new, hs₁, hs₂, hr₁.trans hr₂.symm⟩

theorem Stage.copied_alike (hways : ∀ way ∈ ways, (∀ n ∈ way, n.IsName) ∧ way ≠ [] ∧
      ∃ c, tree.look way = some (some c))
    (h₁ : j₁.Stage first₁ b₁ out e₁) (h₂ : j₂.Stage first₂ b₂ out e₂) :
    ∃ new, j₁.Stage first₁ b₁ new (j₁.copied projects₁ (ways.map j₁.source.joinAll) e₁) ∧
      j₂.Stage first₂ b₂ new (j₂.copied projects₂ (ways.map j₂.source.joinAll) e₂) ∧
      (j₁.records projects₁ (ways.map j₁.source.joinAll) e₁).map Record.isCopied =
        (j₂.records projects₂ (ways.map j₂.source.joinAll) e₂).map Record.isCopied := by
  induction ways generalizing e₁ e₂ out with
  | nil => exact ⟨out, h₁, h₂, rfl⟩
  | cons way ways ih =>
    obtain ⟨⟨hway, hne, c, hc⟩, hways⟩ := List.forall_mem_cons.mp hways
    obtain ⟨mid, hs₁, hs₂, hr⟩ := copyFile_alike projects₁ projects₂ hscrub hlayout₁ hlayout₂ ho₁ ho₂
      h₁ h₂ hway hne hc
    obtain ⟨new, ht₁, ht₂, hrs⟩ := ih hways hs₁ hs₂
    refine ⟨new, ht₁, ht₂, ?_⟩
    rw [List.map_cons, List.map_cons, records, records, List.map_cons, List.map_cons, hrs]
    exact congrArg (· :: _) hr

end two

def waysOf (tree : Node) (rules : List Rule) : List Place :=
  (tree.walk (fun way isDir => !(isDir && way.getLast?.any baseFolders.contains)) []).filter
    fun way => handledBy Kind.all (joinAll ⟨[]⟩ way) &&
      (excludedBy? rules (way.map .name)).isNone

theorem way_spec {es : List (Text × Node)} {admits : Place → Bool → Bool} (ht : (Node.dir es).Tidy)
    (hway : way ∈ Node.walk admits [] (.dir es)) :
    (∀ n ∈ way, n.IsName) ∧ way ≠ [] ∧ ∃ c, Node.look (.dir es) way = some (some c) := by
  rw [← List.nil_append way, Node.mem_walk ht.ordered] at hway
  obtain ⟨⟨c, hc⟩, -⟩ := hway
  refine ⟨(ht.get? (Node.look_eq_file.mp hc)).2, ?_, c, hc⟩
  rintro rfl
  cases hc

/-- The place of the source plays no part in what takes part. -/
theorem Starts.files_eq {files : List Path} {now : Node} {es : List (Text × Node)}
    (h : j.Starts d first projects files) (hignore : j.settings.output.respectIgnoreFiles = false)
    (hstart : first.Reaches j.source start) (hget : first.root.get? start = some now)
    (hnow : now.Tidy) (ht : (Node.dir es).Tidy)
    (hlook : ∀ y, (∃ c, now.look y = some (some c)) ↔ ∃ c, Node.look (.dir es) y = some (some c)) :
    ∃ rules, j.settings.exclusion.rules = .ok rules ∧
      files = (waysOf (.dir es) rules).map j.source.joinAll := by
  obtain ⟨hnamed, -⟩ := Disk.isDir_iff.mp h.source
  obtain ⟨rules, found, hrules, hfound, rfl⟩ := plan_parts h.plan
  refine ⟨rules, hrules, ?_⟩
  have hadmits : first.admits { heedIgnoreFiles := j.settings.output.respectIgnoreFiles } start =
      fun way isDir => !(isDir && way.getLast?.any baseFolders.contains) := by
    funext way isDir
    rw [Disk.admits, hignore, Bool.false_and, Bool.not_false, Bool.and_true]
  rw [hstart.filesBelow hnamed, Disk.waysBelow, hget] at hfound
  dsimp only at hfound
  rw [hadmits, Node.walk_eq_of_look hnow.ordered ht.ordered hlook] at hfound
  obtain rfl := Except.ok.inj hfound
  rw [List.filter_filter, List.filter_map, waysOf]
  refine congrArg (List.map _) (List.filter_congr fun way hway => ?_)
  obtain ⟨hnames, hne, -⟩ := way_spec ht hway
  rw [Function.comp_apply, below?_joinAll hnames, Option.getD_some, Bool.and_comm, handledBy,
    handledBy, fileName?_joinAll hnames hne, fileName?_joinAll hnames hne]

/-- A job with a tree at its source, and with a destination that is empty once it is there. -/
structure Placed (j : Job) (tree : Node) (d first : Disk) (b : Place) : Prop where
  source : d.node j.source = .ok tree
  dirs : d.makeDirs j.destination = (first, .ok ())
  destination : first.Reaches j.destination b
  empty : first.root.get? b = some (.dir [])

theorem Placed.stage (h : j.Placed tree d first b) : j.Stage first b (.dir []) first :=
  ⟨.refl first, .refl h.empty, h.destination, h.empty, trivial⟩

theorem Placed.widens (h : j.Placed tree d first b) : d.Widens first := by
  have := d.makeDirs_widens j.destination
  rwa [h.dirs] at this

theorem Placed.isDir {es : List (Text × Node)} (h : j.Placed (.dir es) d first b) :
    d.isDir j.source = true := by
  rw [Disk.isDir, h.source]
  rfl

/-- Making the destination leaves the files of the tree where they are, and nothing lies in the
destination yet. -/
theorem Placed.offers {es : List (Text × Node)} (h : j.Placed (.dir es) d first b)
    (ht : (Node.dir es).Tidy) :
    ∃ start now, j.Offers first start b (.dir es) ∧ first.root.get? start = some now ∧ now.Tidy ∧
      ∀ y c, now.look y = some (some c) ↔ Node.look (.dir es) y = some (some c) := by
  obtain ⟨-, start, hstart, hget⟩ := Disk.nodeFrom_eq_ok.mp h.source
  have hwide := h.widens
  obtain ⟨now, hnow, htidy⟩ : ∃ now, first.root.get? start = some now ∧ now.Tidy := by
    have := Disk.makeDirsAlong_tidy_at (j.destination.ancestors (j.destination.text.length + 1))
      hget ht
    rwa [show d.makeDirsAlong _ = _ from h.dirs] at this
  have hlook (y : Place) (c : ByteArray) :
      first.root.look (start ++ y) = some (some c) ↔ Node.look (.dir es) y = some (some c) := by
    rw [hwide.files, Node.look_append hget]
  refine ⟨start, now, ⟨?_, fun way c hc => ⟨(hlook way c).mpr hc, ?_⟩⟩, hnow, htidy, fun y c => ?_⟩
  · exact hwide.grows.reaches ⟨hstart, Node.sight_eq_dir.mpr ⟨es, hget⟩⟩
  · rintro ⟨z, hz⟩
    rw [← hlook, ← hz, Node.look_append h.empty] at hc
    cases z <;> cases hc
  · rw [← hlook, Node.look_append hnow]

/-- What takes part is spelled by the source and by ways in the tree. -/
theorem Placed.exists_starts {es : List (Text × Node)} {rules : List Rule}
    (h : j.Placed (.dir es) d first b) (ht : (Node.dir es).Tidy)
    (hignore : j.settings.output.respectIgnoreFiles = false)
    (hrules : j.settings.exclusion.rules = .ok rules) :
    ∃ start projects, j.Offers first start b (.dir es) ∧
      j.Starts d first projects ((waysOf (.dir es) rules).map j.source.joinAll) := by
  obtain ⟨start, now, ho, hget, hnow, hlook⟩ := h.offers ht
  obtain ⟨projects, files, hstarts⟩ := Job.exists_starts h.isDir h.dirs hrules
  obtain ⟨rules', hrules', rfl⟩ := hstarts.files_eq hignore ho.reaches hget hnow ht
    fun y => exists_congr (hlook y)
  obtain rfl := Except.ok.inj (hrules.symm.trans hrules')
  exact ⟨start, projects, ho, hstarts⟩

theorem Placed.elsewhere (h : j.Placed tree d first b) (hs : j.Stage first b out e) {x : Place}
    (hx : ¬ b <+: x) : e.look x = some (some c) ↔ d.look x = some (some c) := by
  rw [Disk.look, Disk.look, Node.look_eq_sight, hs.grafts.off x hx, ← Node.look_eq_sight]
  exact h.widens.files x c

theorem counts_foldl_note (rs : List Record) (n : Nat) :
    (rs.foldl Outcome.note (.ofTotal n)).counts =
      (n, (rs.map Record.isCopied).countP id, (rs.map Record.isCopied).countP (!·)) := by
  rw [Outcome.foldl_note, Outcome.counts, List.countP_map, List.countP_map]
  simp only [Outcome.ofTotal, Nat.zero_add]
  rfl

section two
variable {j₁ j₂ : Job} {d₁ d₂ first₁ first₂ : Disk} {b₁ b₂ : Place} {es : List (Text × Node)}

/-- A tree without links comes to the same copies wherever it lies and wherever they go: the counts
are equal, the copies make the same tree at the destination, and no other file is touched. -/
theorem run_relocates (ht : (Node.dir es).Tidy) (h₁ : j₁.Placed (.dir es) d₁ first₁ b₁)
    (h₂ : j₂.Placed (.dir es) d₂ first₂ b₂) (hsettings : j₁.settings = j₂.settings)
    (hlayout : j₁.settings.output.layout = .structured)
    (hignore : j₁.settings.output.respectIgnoreFiles = false) :
    (j₁.run d₁).2.map Outcome.counts = (j₂.run d₂).2.map Outcome.counts ∧
    (∃ copies, (j₁.run d₁).1.root.get? b₁ = some copies ∧
      (j₂.run d₂).1.root.get? b₂ = some copies) ∧
    (∀ x c, ¬ b₁ <+: x → ((j₁.run d₁).1.look x = some (some c) ↔ d₁.look x = some (some c))) ∧
    ∀ x c, ¬ b₂ <+: x → ((j₂.run d₂).1.look x = some (some c) ↔ d₂.look x = some (some c)) := by
  suffices ∃ copies, j₁.Stage first₁ b₁ copies (j₁.run d₁).1 ∧
      j₂.Stage first₂ b₂ copies (j₂.run d₂).1 ∧
      (j₁.run d₁).2.map Outcome.counts = (j₂.run d₂).2.map Outcome.counts by
    obtain ⟨copies, hs₁, hs₂, hcounts⟩ := this
    exact ⟨hcounts, ⟨copies, hs₁.hosts.get, hs₂.hosts.get⟩, fun x c => h₁.elsewhere hs₁,
      fun x c => h₂.elsewhere hs₂⟩
  cases hrules : j₁.settings.exclusion.rules with
  | error err =>
    rw [run_of_rules_error h₁.isDir h₁.dirs hrules,
      run_of_rules_error h₂.isDir h₂.dirs (hsettings ▸ hrules)]
    exact ⟨.dir [], h₁.stage, h₂.stage, rfl⟩
  | ok rules =>
    obtain ⟨start₁, projects₁, ho₁, hstarts₁⟩ := h₁.exists_starts ht hignore hrules
    obtain ⟨start₂, projects₂, ho₂, hstarts₂⟩ :=
      h₂.exists_starts ht (hsettings ▸ hignore) (hsettings ▸ hrules)
    have hways : ∀ way ∈ waysOf (.dir es) rules, (∀ n ∈ way, n.IsName) ∧ way ≠ [] ∧
        ∃ c, Node.look (.dir es) way = some (some c) :=
      fun way hway => way_spec ht (List.mem_filter.mp hway).1
    obtain ⟨copies, hs₁, hs₂, hrecords⟩ := Stage.copied_alike projects₁ projects₂
      (congrArg Settings.scrub hsettings) hlayout (hsettings ▸ hlayout) ho₁ ho₂
      hways h₁.stage h₂.stage
    rw [hstarts₁.run_eq, hstarts₂.run_eq]
    refine ⟨copies, hs₁, hs₂, ?_⟩
    rw [Except.map, Except.map, counts_foldl_note, counts_foldl_note, hrecords, List.length_map,
      List.length_map]

end two

/-- The entries of a tree with a file that is no text and with a directory that is passed over. -/
def packedEntries : List (Text × Node) := [
  ("a.cs".toList, .file (Text.toBytes "x(); // y".toList)),
  ("b.cs".toList, .file ⟨#[0xff]⟩),
  ("bin".toList, .dir [("c.cs".toList, .file (Text.toBytes "y();".toList))]),
  ("lib".toList, .dir [("d.py".toList, .file (Text.toBytes "pass".toList))])]

/-- A disk that has the tree in a directory that would be passed over below the source. -/
def binDisk : Disk where
  root := .dir [("bin".toList, .dir packedEntries)]

def binJob : Job where
  source := .ofString "bin"
  destination := .ofString "out"

/-- A disk that has the tree behind a link. -/
def linkedDisk : Disk where
  root := .dir [
    ("Tests".toList, .dir [("src".toList, .dir packedEntries)]),
    ("copies".toList, .dir []),
    ("here".toList, .link "Tests/src".toList)]

def linkedJob : Job where
  source := .ofString "./Tests/../here/"
  destination := .ofString "/copies"

theorem run_relocates_from_bin_and_link :
    ((binJob.run binDisk).2.map Outcome.counts =
      (linkedJob.run linkedDisk).2.map Outcome.counts) ∧
    ∃ copies, (binJob.run binDisk).1.root.get? ["out".toList] = some copies ∧
      (linkedJob.run linkedDisk).1.root.get? ["copies".toList] = some copies := by
  have htidy : (Node.dir packedEntries).Tidy := by decide
  have hbin : binJob.Placed (.dir packedEntries) binDisk
      (binDisk.makeDirs binJob.destination).1 ["out".toList] :=
    ⟨rfl, rfl, ⟨rfl, rfl⟩, rfl⟩
  have hlinked : linkedJob.Placed (.dir packedEntries) linkedDisk linkedDisk ["copies".toList] :=
    ⟨rfl, rfl, ⟨rfl, rfl⟩, rfl⟩
  have h := run_relocates htidy hbin hlinked rfl rfl rfl
  exact ⟨h.1, h.2.1⟩

end Job

end CleanCopy
