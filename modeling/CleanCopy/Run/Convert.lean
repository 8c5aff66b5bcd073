import CleanCopy.Project.Discovery
import CleanCopy.Project.Layout
import CleanCopy.Run.Outcome
import CleanCopy.Settings.Basic

namespace CleanCopy

structure Job where
  source : Path
  destination : Path
  settings : Settings := {}
  deriving DecidableEq, Repr, Inhabited

namespace Job

def kindOf (p : Path) : Except Failure Kind :=
  match p.fileName?.bind Kind.ofFileName? with
  | some k => .ok k
  | none => .error (.unsupported p)

/-- A file's text without a byte order mark before it. -/
def readSource (d : Disk) (p : Path) : Except Failure Text :=
  (d.read p).map fun t =>
    match t with
    | '\uFEFF' :: rest => rest
    | t => t

def scrub (o : ScrubOptions) (p : Path) (t : Text) : Except Failure Text :=
  (kindOf p).map fun k => k.scrub o t

def copyText (o : ScrubOptions) (d : Disk) (p : Path) : Except Failure Text :=
  (readSource d p).bind (scrub o p)

variable (j : Job)

def destinationOf (projects : Projects) (p : Path) : Path :=
  j.settings.output.layout.destination projects j.source j.destination p

def copyFile (projects : Projects) (p : Path) (d : Disk) : Disk × Except Failure Unit :=
  match copyText j.settings.scrub d p with
  | .ok t => d.writeWithParents (j.destinationOf projects p) t
  | .error e => (d, .error e)

def errorText (p : Path) (e : Failure) : Text :=
  "Error processing ".toList ++ p.text ++ ": ".toList ++ e.message

/-- Makes the copies of files one after the other; a failure is recorded and ends nothing. -/
def copyFiles (projects : Projects) : List Path → Outcome → Disk → Disk × Outcome
  | [], o, d => (d, o)
  | p :: ps, o, d =>
    match j.copyFile projects p d with
    | (d, .ok ()) => copyFiles projects ps o.success d
    | (d, .error e) => copyFiles projects ps (o.failure (errorText p e)) d

def plan (d : Disk) : Except Failure (Projects × List Path) := do
  let rules ← j.settings.exclusion.rules
  let projects ← d.projectsBelow j.source
  let files ← d.sourcesBelow Kind.all
    { heedIgnoreFiles := j.settings.output.respectIgnoreFiles } j.source
  return (projects, files.filter fun p =>
    (excludedBy? rules ((p.below? j.source).getD p.components)).isNone)

def run (d : Disk) : Disk × Except Failure Outcome :=
  if d.isDir j.source then
    match d.makeDirs j.destination with
    | (d, .error e) =>
      (d, .error (.setup ("Cannot create destination directory ".toList ++ j.destination.text)
        (some e.message)))
    | (d, .ok ()) =>
      match j.plan d with
      | .error e => (d, .error e)
      | .ok (projects, files) =>
        let (d, o) := j.copyFiles projects files (.ofTotal files.length) d
        (d, .ok o)
  else
    (d, .error (.setup ("Source directory does not exist: ".toList ++ j.source.text) none))

end Job

end CleanCopy
