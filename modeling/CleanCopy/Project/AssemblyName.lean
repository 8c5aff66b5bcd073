import CleanCopy.Project.Descriptor
import CleanCopy.Xml.Event
import CleanCopy.Xml.Reference

namespace CleanCopy

def Xml.localName (name : Text) : Text :=
  match Text.cut? [':'] name with
  | some (_, after) => after
  | none => name

/-- Where a search for the name stands: the elements open, those open at the first property group,
and the name read so far once its element has begun. -/
structure NameSearch where
  depth : Nat := 0
  group : Option Nat := none
  name : Option Text := none
  deriving DecidableEq, Repr

namespace NameSearch

def isGroup (name : Text) : Bool := Xml.localName name = "PropertyGroup".toList

def enter (s : NameSearch) (name : Text) : NameSearch :=
  let s := { s with depth := s.depth + 1 }
  match s.group with
  | none => if isGroup name then { s with group := some s.depth } else s
  | some g =>
    if s.depth = g + 1 && Xml.localName name = "AssemblyName".toList then
      { s with name := some (s.name.getD []) }
    else s

/-- The name that the events declare. The end of the name's element, or of the first group, decides. -/
def run (s : NameSearch) : List Xml.Event → Option Text
  | [] => none
  | .start name :: es => run (s.enter name) es
  | .empty name :: es => if s.group.isNone && isGroup name then none else run s es
  | .text raw :: es =>
    match s.name with
    | none => run s es
    | some name =>
      match Xml.unescape? raw with
      | some t => run { s with name := some (name ++ t) } es
      | none => none
  | .cdata body :: es =>
    match s.name with
    | none => run s es
    | some name => run { s with name := some (name ++ body) } es
  | .stop _ :: es =>
    match s.name with
    | some name => name.nonBlank?
    | none =>
      if s.group = some s.depth then none else run { s with depth := s.depth - 1 } es
  | .aside :: es => run s es
  | .malformed :: _ => none

end NameSearch

/-- The assembly name that a project file's first property group declares. -/
def assemblyName? (xml : Text) : Option Text := NameSearch.run {} (Xml.events xml)

end CleanCopy
