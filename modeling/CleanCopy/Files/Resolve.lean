import CleanCopy.Files.Node
import CleanCopy.Text.Path

namespace CleanCopy

inductive FileError where
  | missing
  | present
  | notDirectory
  | isDirectory
  | tooManyLinks
  | notText
  deriving DecidableEq, Repr

def FileError.message : FileError → Text
  | missing => "No such file or directory (os error 2)".toList
  | present => "File exists (os error 17)".toList
  | notDirectory => "Not a directory (os error 20)".toList
  | isDirectory => "Is a directory (os error 21)".toList
  | tooManyLinks => "Too many levels of symbolic links (os error 40)".toList
  | notText => "stream did not contain valid UTF-8".toList

/-- The steps of a path in a tree. A stretch that means nothing still asks for a directory. -/
def Path.steps (p : Path) : List Component :=
  p.lead.toList ++ p.segments.map fun s => (Component.ofSegment? s).getD .here

def Path.bare (p : Path) : Path := ⟨p.text.dropEndWhile (· = '/')⟩

/-- Where a path ends: at a node that is no link, or at a free name in a directory. -/
inductive Target where
  | node (place : Place)
  | free (place : Place)
  deriving DecidableEq, Repr

/-- How far steps lead before a link comes in the way. -/
inductive Reach where
  | target (t : Target)
  | link (dir : Place) (path : Text) (rest : List Component)
  | failed (e : FileError)
  deriving DecidableEq, Repr

namespace Node

/-- Takes steps from a place; the one above the root is the root. -/
def follow (root : Node) (place : Place) : List Component → Reach
  | [] => .target (.node place)
  | step :: rest =>
    match root.get? place with
    | some (.dir es) =>
      match step with
      | .root => follow root [] rest
      | .here => follow root place rest
      | .up => follow root place.dropLast rest
      | .name n =>
        match es.lookup n with
        | some (.link path) => .link place path rest
        | some _ => follow root (place ++ [n]) rest
        | none => if rest.isEmpty then .target (.free (place ++ [n])) else .failed .missing
    | _ => .failed .notDirectory

def resolve (root : Node) (links : Nat) (place : Place) (steps : List Component) :
    Except FileError Target :=
  match root.follow place steps, links with
  | .target t, _ => .ok t
  | .failed e, _ => .error e
  | .link _ [] _, _ => .error .missing
  | .link _ (_ :: _) _, 0 => .error .tooManyLinks
  | .link base path rest, links + 1 => resolve root links base (Path.steps ⟨path⟩ ++ rest)

end Node

end CleanCopy
