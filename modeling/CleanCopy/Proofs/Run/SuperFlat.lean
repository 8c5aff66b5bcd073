import CleanCopy.Proofs.Run.Route
import CleanCopy.Proofs.Text.Lists
import CleanCopy.Run.Convert

namespace CleanCopy

open CleanCopy.Path

variable {p q file source dest : Path} {projects : Projects}

theorem copyName_cases (file : Path) : copyName file = [] ∨ (copyName file).IsName := by
  cases h : file.fileName? with
  | none =>
    left
    rw [copyName, h]
    rfl
  | some n =>
    right
    have hn := isName_of_fileName? h
    have hname : copyName file = copyName (Path.join ⟨[]⟩ ⟨n⟩) := by
      rw [copyName, copyName, h, fileName?_join hn]
    rw [hname, copyName_join hn]
    exact isName_copyOf hn

theorem notMem_copyName (file : Path) : '/' ∉ copyName file := by
  rcases copyName_cases file with h | h
  · rw [h]
    exact List.not_mem_nil
  · exact h.no_slash

namespace Projects

/-- Two files of projects with one name, with copies of one name. -/
def SharesCopy (projects : Projects) (p q : Path) : Prop :=
  sanitize (projects.nameFor p) = sanitize (projects.nameFor q) ∧ copyName p = copyName q

/-- The project of the second file has the name of the first one's, a point and something more, with
which and a point the name of the first file's copy begins; behind that it is the name of the second
file's copy. -/
def RunsInto (projects : Projects) (p q : Path) : Prop :=
  ∃ w, sanitize (projects.nameFor q) = sanitize (projects.nameFor p) ++ '.' :: w ∧
    copyName p = w ++ '.' :: copyName q

variable {projects : Projects}

theorem SharesCopy.symm (h : projects.SharesCopy p q) : projects.SharesCopy q p :=
  ⟨h.1.symm, h.2.symm⟩

/-- A project does not run into itself. -/
theorem RunsInto.not_sharesCopy (h : projects.RunsInto p q) : ¬ projects.SharesCopy p q := by
  obtain ⟨w, hname, -⟩ := h
  rintro ⟨hsame, -⟩
  rw [hsame] at hname
  exact absurd (List.self_eq_append_right.mp hname) (List.cons_ne_nil _ _)

end Projects

namespace Layout

/-- The copies of two files go to the same path. -/
def Collides (l : Layout) (projects : Projects) (source dest p q : Path) : Prop :=
  (l.destination projects source dest p).components =
    (l.destination projects source dest q).components

instance (l : Layout) (projects : Projects) (source dest p q : Path) :
    Decidable (l.Collides projects source dest p q) :=
  inferInstanceAs (Decidable (_ = _))

theorem collides_superFlat_iff : superFlat.Collides projects source dest p q ↔
    projects.SharesCopy p q ∨ projects.RunsInto p q ∨ projects.RunsInto q p := by
  have hslash (file : Path) : '/' ∉ sanitize (projects.nameFor file) ++ '.' :: copyName file := by
    intro h
    rcases List.mem_append.mp h with h | h
    · exact notMem_sanitize _ h
    · exact (List.mem_cons.mp h).elim (by decide) (notMem_copyName file)
  rw [Collides, destination, destination,
    components_join_inj (hslash p) (by simp) (hslash q) (by simp), List.append_cons_eq_iff]
  rfl

theorem collides_flat_iff (hp : (sanitize (projects.nameFor p)).IsName)
    (hq : (sanitize (projects.nameFor q)).IsName) :
    flat.Collides projects source dest p q ↔ projects.SharesCopy p q := by
  have hform {file : Path} (h : (sanitize (projects.nameFor file)).IsName) :
      (flat.destination projects source dest file).components = dest.components ++
        (.name (sanitize (projects.nameFor file)) ::
          (Component.ofSegment? (copyName file)).toList) := by
    rw [destination, components_join_of_notMem (notMem_copyName file) (.inl (join_ne_nil h)),
      components_join h, List.append_assoc]
    rfl
  rw [Collides, hform hp, hform hq, List.append_cancel_left_eq, List.cons.injEq, Component.name.injEq]
  refine and_congr_right fun _ => ⟨fun h => ?_, fun h => by rw [h]⟩
  have hsame : Component.ofSegment? (copyName p) = Component.ofSegment? (copyName q) := by
    simpa using congrArg List.head? h
  rcases copyName_cases p with hnil | hname
  · rcases copyName_cases q with hnil' | hname'
    · rw [hnil, hnil']
    · exact (Component.ofSegment?_inj hsame.symm ⟨hname'.ne_nil, hname'.ne_here⟩).symm
  · exact Component.ofSegment?_inj hsame ⟨hname.ne_nil, hname.ne_here⟩

/-- Two copies meet in one directory for all projects when they would meet in the directory of their
project, and besides only when the name of one project runs into the name of another one's file. -/
theorem superFlat_collides (projects : Projects) (source dest p q : Path) :
    (superFlat.Collides projects source dest p q ↔
      projects.SharesCopy p q ∨ projects.RunsInto p q ∨ projects.RunsInto q p) ∧
    (projects.SharesCopy p q → flat.Collides projects source dest p q) ∧
    ((sanitize (projects.nameFor p)).IsName → (sanitize (projects.nameFor q)).IsName →
      (superFlat.Collides projects source dest p q ∧ ¬ flat.Collides projects source dest p q ↔
        projects.RunsInto p q ∨ projects.RunsInto q p)) := by
  refine ⟨collides_superFlat_iff, fun ⟨hproject, hcopy⟩ => ?_, fun hp hq => ?_⟩
  · rw [Collides, destination, destination, hproject, hcopy]
  · rw [collides_superFlat_iff, collides_flat_iff hp hq]
    constructor
    · rintro ⟨hshared | hruns, hapart⟩
      · exact absurd hshared hapart
      · exact hruns
    · rintro (h | h)
      · exact ⟨.inr (.inl h), h.not_sharesCopy⟩
      · exact ⟨.inr (.inr h), fun hshared => h.not_sharesCopy hshared.symm⟩

/-- A tree with two projects, of which one continues the name of the other behind a point. -/
def runningTree : Disk where
  root := .dir [("src".toList, .dir [
    ("Shop".toList, .dir [
      ("Shop.csproj".toList, .file (Text.toBytes "<Project/>".toList)),
      ("Web.Cart.cs".toList, .file (Text.toBytes "x();".toList))]),
    ("Shop.Web".toList, .dir [
      ("Cart.cs".toList, .file (Text.toBytes "y();".toList)),
      ("Shop.Web.csproj".toList, .file (Text.toBytes "<Project/>".toList))])])]

def runningJob : Job where
  source := .ofString "src"
  destination := .ofString "out"
  settings := { output := { layout := .superFlat } }

/-- Two files of different projects are counted as copied, and there is one copy. -/
theorem superFlat_collides_across :
    let p := ofString "src/Shop/Web.Cart.cs"
    let q := ofString "src/Shop.Web/Cart.cs"
    let projects : Projects := ⟨[(ofString "src/Shop/Shop.csproj", "Shop".toList),
      (ofString "src/Shop.Web/Shop.Web.csproj", "Shop.Web".toList)]⟩
    let (d', outcome) := runningJob.run runningTree
    (runningJob.plan runningTree).toOption = some (projects, [p, q]) ∧
      superFlat.Collides projects runningJob.source runningJob.destination p q ∧
      ¬ flat.Collides projects runningJob.source runningJob.destination p q ∧
      sanitize (projects.nameFor p) ≠ sanitize (projects.nameFor q) ∧
      outcome.toOption = some { total := 2, succeeded := 2 } ∧
      (d'.filesBelow {} runningJob.destination).toOption =
        some [ofString "out/Shop.Web.Cart.txt"] := by
  decide +kernel

end Layout

end CleanCopy
