import CleanCopy.CommandLine.Execute

namespace CleanCopy.Snapshot

def look (p : Path) : IO (Option (IO.FS.DirEntry × IO.FS.FileType)) := do
  let entry : IO.FS.DirEntry := ⟨← IO.currentDir, String.ofList p.text⟩
  try return some (entry, (← entry.path.symlinkMetadata).type) catch _ => return none

def realPath (p : Path) : IO Path := do
  return .ofString (← IO.FS.realPath (String.ofList p.text)).toString

mutual

partial def add (deep : Bool) (d : Disk) (p : Path) : IO Disk := do
  match p.parent? with
  | some up => addEntry deep (← if up.text.isEmpty then pure d else add false d up) p
  | none => return d

/-- Adds what a path names when the way to it is there. Of a directory everything is added if that
is asked for, but no search goes through base folders. -/
partial def addEntry (deep : Bool) (d : Disk) (p : Path) : IO Disk := do
  match d.dirAround p, p.fileName?, ← look p with
  | .ok above, some name, some (entry, type) =>
    let place := above ++ [name]
    match type with
    | .dir =>
      let d := if (d.root.get? place).any Node.isDir then d else d.withNode place (.dir [])
      if deep then
        let d ← add false d (p.join Ignore.privateRules)
        let children ← try entry.path.readDir catch _ => pure #[]
        children.foldlM (fun d child =>
          let name := child.fileName.toList
          addEntry (!baseFolders.contains name) d (p.join ⟨name⟩)) d
      else return d
    | .file =>
      try return d.withNode place (.file (← IO.FS.readBinFile entry.path)) catch _ => return d
    | .symlink =>
      try
        let real ← realPath p
        add false (d.withNode place (.link real.text)) real
      catch _ => return d
    | .other => return d
  | _, _, _ => return d

end

def addAll (d : Disk) (p : Path) : IO Disk := do
  let d ← add false d p
  match d.canonical? p with
  | some real => add true d real
  | none => return d

/-- The part of the machine's files that a command can tell apart. -/
def take (c : Command) : IO Disk := do
  let here := Path.ofString (← IO.currentDir).toString
  let d ← add false {} here
  let d := { d with here := here.components.filterMap fun | .name t => some t | _ => none }
  match c with
  | .init _ => add false d ⟨settingsFileName⟩
  | .convert c =>
    let d ← addAll d c.source
    let d ← addAll d c.destination
    let d ← c.settingsFile.toList.foldlM (add false) d
    let source := (d.canonical? c.source).getD c.source
    (source.ancestors (source.text.length + 1)).foldlM (fun d dir =>
      [⟨settingsFileName⟩, Ignore.sharedRules, Ignore.privateRules].foldlM
        (fun d file => add false d (dir.join file)) d) d

/-- Makes the files and directories in which one tree goes beyond another. -/
partial def save (path : String) (before : Option Node) : Node → IO Unit
  | .dir es => do
    unless before.any Node.isDir do IO.FS.createDir path
    for (name, n) in es do
      save (path ++ "/" ++ String.ofList name) (before.bind (·.entries.lookup name)) n
  | .file content => do
    let same := match before with
      | some (.file old) => old == content
      | _ => false
    unless same do IO.FS.writeBinFile path content
  | .link _ => pure ()

end CleanCopy.Snapshot

open CleanCopy in
def main (arguments : List String) : IO UInt32 := do
  let arguments := arguments.map String.toList
  let before ← match Command.parse arguments with
    | .ok c => Snapshot.take c
    | .error _ => pure {}
  let color := (← (← IO.getStdout).isTty) && (← IO.getEnv "NO_COLOR").isNone
  let (after, report) := execute color arguments before
  Snapshot.save "" (some before.root) after.root
  IO.print report.output
  match report.complaint with
  | some c => IO.eprintln ((if report.code = 1 then "Error: " else "error: ") ++ String.ofList c)
  | none => pure ()
  return report.code.toUInt32
