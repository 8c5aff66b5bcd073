import CleanCopy.Files.Walk
import CleanCopy.Ignore.Scope
import CleanCopy.Scrub.Kind
import CleanCopy.Select.Exclusion

namespace CleanCopy

structure SearchOptions where
  skip : List Text := baseFolders
  heedIgnoreFiles : Bool := false
  deriving DecidableEq, Repr, Inhabited

namespace Disk

/-- Whether a search goes into an entry, given the place of its start and the way from there. -/
def admits (d : Disk) (o : SearchOptions) (start way : Place) (isDir : Bool) : Bool :=
  !(isDir && way.getLast?.any o.skip.contains) &&
    !(o.heedIgnoreFiles && d.ignores (start ++ way) isDir)

/-- The regular files below a directory, in the order of their paths. -/
def filesBelow (d : Disk) (o : SearchOptions) (dir : Path) : Except Failure (List Path) :=
  let refuse := Except.error (.setup ("Source path is not a directory: ".toList ++ dir.text) none)
  match d.resolve dir with
  | .ok (.node start) =>
    match d.root.get? start with
    | some (.dir es) =>
      .ok ((Node.walk (d.admits o start) [] (.dir es)).map fun way =>
        way.foldl (fun p name => p.join ⟨name⟩) dir)
    | _ => refuse
  | _ => refuse

end Disk

def handledBy (kinds : List Kind) (p : Path) : Bool :=
  p.fileName?.any fun name => kinds.any (·.handles name)

def Disk.sourcesBelow (d : Disk) (kinds : List Kind) (o : SearchOptions) (dir : Path) :
    Except Failure (List Path) :=
  (d.filesBelow o dir).map (·.filter (handledBy kinds))

end CleanCopy
