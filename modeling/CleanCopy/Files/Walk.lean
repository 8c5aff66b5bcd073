import CleanCopy.Files.Node

namespace CleanCopy.Node

mutual

/-- The places of the regular files at or below a node, depth first and by name, without the
entries that are not admitted and what lies below them. Links are left out. -/
def walk (admits : Place → Bool → Bool) (place : Place) : Node → List Place
  | file _ => [place]
  | dir es => walkEntries admits place es
  | link _ => []

def walkEntries (admits : Place → Bool → Bool) (place : Place) : List (Text × Node) → List Place
  | [] => []
  | (name, n) :: es =>
    let here := place ++ [name]
    (if admits here n.isDir then walk admits here n else []) ++ walkEntries admits place es

end

def files (n : Node) : List Place := n.walk (fun _ _ => true) []

end CleanCopy.Node
