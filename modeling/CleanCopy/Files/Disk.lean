import CleanCopy.Failure
import CleanCopy.Files.Resolve
import CleanCopy.Text.Bytes

namespace CleanCopy

/-- A tree of files, and the directory in which relative paths begin. -/
structure Disk where
  root : Node := .dir []
  here : Place := []
  deriving Inhabited

namespace Disk

/-- How many links one path may go through. -/
def maxLinks : Nat := 40

/-- What a path leads to when relative ones begin at `dir`. -/
def resolveFrom (d : Disk) (dir : Place) (p : Path) : Except FileError Target :=
  if p.text.isEmpty then .error .missing else d.root.resolve maxLinks dir p.steps

def resolve (d : Disk) (p : Path) : Except FileError Target := d.resolveFrom d.here p

def nodeFrom (d : Disk) (dir : Place) (p : Path) : Except FileError Node :=
  match d.resolveFrom dir p with
  | .ok (.node place) =>
    match d.root.get? place with
    | some n => .ok n
    | none => .error .missing
  | .ok (.free _) => .error .missing
  | .error e => .error e

def node (d : Disk) (p : Path) : Except FileError Node := d.nodeFrom d.here p

def holds (d : Disk) (p : Path) : Bool := (d.node p).isOk

def isDir (d : Disk) (p : Path) : Bool := (d.node p).toOption.any Node.isDir

def bytesFrom (d : Disk) (dir : Place) (p : Path) : Except FileError ByteArray :=
  match d.nodeFrom dir p with
  | .ok (.file content) => .ok content
  | .ok _ => .error .isDirectory
  | .error e => .error e

def textOf (d : Disk) (p : Path) : Except FileError Text :=
  match d.bytesFrom d.here p with
  | .ok content =>
    match Text.ofBytes? content with
    | some t => .ok t
    | none => .error .notText
  | .error e => .error e

def read (d : Disk) (p : Path) : Except Failure Text :=
  (d.textOf p).mapError fun e => .file p e.message

/-- The absolute path without links of what a path leads to. -/
def canonical? (d : Disk) (p : Path) : Option Path :=
  match d.resolve p with
  | .ok (.node place) => some ⟨'/' :: Path.joinSegments place⟩
  | _ => none

/-- The directory in which the last name of a path is looked for. -/
def dirAroundFrom (d : Disk) (dir : Place) (p : Path) : Except FileError Place :=
  match d.root.resolve maxLinks dir p.bare.steps.dropLast with
  | .ok (.node place) =>
    if (d.root.get? place).any Node.isDir then .ok place else .error .notDirectory
  | .ok (.free _) => .error .missing
  | .error e => .error e

def dirAround (d : Disk) (p : Path) : Except FileError Place := d.dirAroundFrom d.here p

/-- Whether a path, or the last of the links that it ends in, closes with a slash. -/
def wantsDir (d : Disk) : (links : Nat) → (dir : Place) → Path → Bool
  | 0, _, _ => false
  | links + 1, dir, p =>
    match d.dirAroundFrom dir p with
    | .error _ => false
    | .ok above =>
      p.text.getLast? = some '/' ||
        match p.steps.getLast? with
        | some (.name n) =>
          match d.root.get? (above ++ [n]) with
          | some (.link path) => d.wantsDir links above ⟨path⟩
          | _ => false
        | _ => false

def withNode (d : Disk) (place : Place) (n : Node) : Disk := { d with root := d.root.put place n }

def writeBytes (p : Path) (content : ByteArray) (d : Disk) : Except FileError Disk :=
  if d.wantsDir (maxLinks + 1) d.here p then .error .isDirectory
  else
    match d.resolve p with
    | .ok (.node place) =>
      if (d.root.get? place).any Node.isFile then .ok (d.withNode place (.file content))
      else .error .isDirectory
    | .ok (.free place) => .ok (d.withNode place (.file content))
    | .error e => .error e

def makeDir (p : Path) (d : Disk) : Except FileError Disk :=
  if p.text.isEmpty then .error .missing
  else if p.bare.text.isEmpty then .error .present
  else
    match d.dirAround p, p.bare.steps.getLast? with
    | .error e, _ => .error e
    | .ok place, some (.name n) =>
      if (d.root.get? (place ++ [n])).isSome then .error .present
      else .ok (d.withNode (place ++ [n]) (.dir []))
    | .ok _, _ => .error .present

/-- Makes the first of some directories, each of which lies in the next; of those that are missing
the outermost comes first. What has been made stays when a later step fails. -/
def makeDirsAlong (d : Disk) : List Path → Disk × Except FileError Unit
  | [] => (d, .ok ())
  | p :: above =>
    if p.text.isEmpty then (d, .ok ())
    else
      match d.makeDir p with
      | .ok d => (d, .ok ())
      | .error .missing =>
        match makeDirsAlong d above with
        | (d, .error e) => (d, .error e)
        | (d, .ok ()) =>
          match d.makeDir p with
          | .ok d => (d, .ok ())
          | .error e => (d, if d.isDir p then .ok () else .error e)
      | .error e => (d, if d.isDir p then .ok () else .error e)

def makeDirs (p : Path) (d : Disk) : Disk × Except FileError Unit :=
  d.makeDirsAlong (p.ancestors (p.text.length + 1))

def ensureDir (p : Path) (d : Disk) : Disk × Except Failure Unit :=
  if d.holds p then (d, .ok ())
  else
    match d.makeDirs p with
    | (d, .ok ()) => (d, .ok ())
    | (d, .error e) => (d, .error (.file p e.message))

def write (p : Path) (t : Text) (d : Disk) : Disk × Except Failure Unit :=
  match d.writeBytes p t.toBytes with
  | .ok d => (d, .ok ())
  | .error e => (d, .error (.file p e.message))

def writeWithParents (p : Path) (t : Text) (d : Disk) : Disk × Except Failure Unit :=
  match p.parent? with
  | some ⟨c :: cs⟩ =>
    match d.ensureDir ⟨c :: cs⟩ with
    | (d, .ok ()) => d.write p t
    | (d, .error e) => (d, .error e)
  | _ => d.write p t

end Disk

end CleanCopy
