import CleanCopy.Project.Descriptor

namespace CleanCopy

/-- Descriptors and the names of their projects, in the order of paths, each path once. -/
structure Projects where
  entries : List (Path × Text) := []
  deriving DecidableEq, Repr, Inhabited

namespace Projects

def insertInto (p : Path) (name : Text) : List (Path × Text) → List (Path × Text)
  | [] => [(p, name)]
  | (q, old) :: rest =>
    match p.compare q with
    | .lt => (p, name) :: (q, old) :: rest
    | .eq => (q, name) :: rest
    | .gt => (q, old) :: insertInto p name rest

/-- Adds a descriptor. A path that is there already keeps its spelling and takes the new name. -/
def insert (ps : Projects) (p : Path) (name : Text) : Projects := ⟨insertInto p name ps.entries⟩

def rank (p : Path) : Nat := ((DescriptorKind.ofPath? p).map DescriptorKind.priority).getD 255

/-- Whether a descriptor goes before another one: by depth, then rank, then path. -/
def precedes (p q : Path × Nat) : Bool :=
  ((Ord.compare q.2 p.2).then ((Ord.compare (rank p.1) (rank q.1)).then (p.1.compare q.1))) == .lt

def depthOver? (file descriptor : Path) : Option Nat :=
  match descriptor.parent? with
  | none => none
  | some dir => if file.isWithin dir then some dir.components.length else none

/-- The descriptor whose directory lies deepest around a file. -/
def ownerOf? (file : Path) : List (Path × Text) → Option (Path × Nat × Text)
  | [] => none
  | (p, name) :: rest =>
    match depthOver? file p, ownerOf? file rest with
    | none, best => best
    | some depth, none => some (p, depth, name)
    | some depth, some (q, d, n) =>
      if precedes (q, d) (p, depth) then some (q, d, n) else some (p, depth, name)

def owner? (ps : Projects) (file : Path) : Option (Path × Text) :=
  (ownerOf? file ps.entries).map fun (p, _, name) => (p, name)

def nameFor (ps : Projects) (file : Path) : Text :=
  ((ps.owner? file).map Prod.snd).getD unknownProject

end Projects

end CleanCopy
