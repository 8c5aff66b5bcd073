import CleanCopy.Project.AssemblyName
import CleanCopy.Project.Basic
import CleanCopy.Select.Search

namespace CleanCopy

def DescriptorKind.declaredName? (k : DescriptorKind) (content : Text) : Option Text :=
  match k with
  | csProject => assemblyName? content
  | angularWorkspace => workspaceName? content
  | packageManifest => packageName? content

namespace Disk

/-- The name of a descriptor's project; one that cannot be read is named by its path. -/
def projectName (d : Disk) (k : DescriptorKind) (p : Path) : Text :=
  match d.textOf p with
  | .ok content => (k.declaredName? content).getD (k.fallbackName p)
  | .error _ => k.fallbackName p

def projectsOf (d : Disk) (ps : List Path) : Projects :=
  ps.foldl (fun projects p =>
    match DescriptorKind.ofPath? p with
    | some k => projects.insert p (d.projectName k p)
    | none => projects) {}

def projectsBelow (d : Disk) (dir : Path) : Except Failure Projects :=
  (d.filesBelow {} dir).map fun files =>
    d.projectsOf (files.filter fun p => (DescriptorKind.ofPath? p).isSome)

/-- Whether an entry of that name makes its directory the root of a project. -/
def marksProjectRoot (name : Text) : Bool :=
  ".sln".toList.isSuffixOf (Text.asciiLower name) ||
    name = "angular.json".toList || name = "package.json".toList

def isProjectRoot (d : Disk) (dir : Path) : Bool :=
  (d.node dir).toOption.any fun n => n.entries.any fun (name, _) => marksProjectRoot name

end Disk

end CleanCopy
