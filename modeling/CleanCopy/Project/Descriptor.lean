import CleanCopy.Text.Blank
import CleanCopy.Text.Path

namespace CleanCopy

/-- A file that declares a project, in the order in which one outranks another in its directory. -/
inductive DescriptorKind where
  | csProject
  | angularWorkspace
  | packageManifest
  deriving DecidableEq, Repr

def unknownProject : Text := "Unknown".toList

namespace DescriptorKind

def priority : DescriptorKind → Nat
  | csProject => 0
  | angularWorkspace => 1
  | packageManifest => 2

def ofPath? (p : Path) : Option DescriptorKind :=
  match p.fileName? with
  | none => none
  | some name =>
    if ".csproj".toList.isSuffixOf (Text.asciiLower name) then some csProject
    else if name = "angular.json".toList then some angularWorkspace
    else if name = "package.json".toList then some packageManifest
    else none

/-- A project's name by its path: the file's own for a compiled project, else the directory's. -/
def fallbackName (k : DescriptorKind) (p : Path) : Text :=
  let name := match k with
    | csProject => p.stem?
    | angularWorkspace | packageManifest => p.parent?.bind Path.fileName?
  match name with
  | some (c :: cs) => c :: cs
  | _ => unknownProject

end DescriptorKind

namespace Text

def quoted? : Text → Option Text
  | '\"' :: cs =>
    match cs.takeWhile (· ≠ '\"'), cs.dropWhile (· ≠ '\"') with
    | [], _ => none
    | _, [] => none
    | body, _ :: _ => some body
  | _ => none

def afterKey? (key t : Text) : Option Text :=
  (after? ('\"' :: key ++ ['\"']) t).bind fun rest =>
    (after? [':'] rest.trimStart).map trimStart

def stringValue? (key t : Text) : Option Text := (afterKey? key t).bind quoted?

/-- The first key of the object that is the value of a key. -/
def firstKey? (key t : Text) : Option Text :=
  (afterKey? key t).bind fun rest => (after? ['\x7b'] rest).bind fun inner => quoted? inner.trimStart

def search? (f : Text → Option Text) : Text → Option Text
  | [] => f []
  | c :: cs => f (c :: cs) <|> search? f cs

def nonBlank? (t : Text) : Option Text := if t.trim.isEmpty then none else some t.trim

end Text

/-- The default project of a workspace, or else its first one. -/
def workspaceName? (json : Text) : Option Text :=
  ((json.search? (Text.stringValue? "defaultProject".toList)).bind Text.nonBlank?) <|>
    ((json.search? (Text.firstKey? "projects".toList)).bind Text.nonBlank?)

def packageName? (json : Text) : Option Text :=
  (json.search? (Text.stringValue? "name".toList)).bind Text.nonBlank?

end CleanCopy
