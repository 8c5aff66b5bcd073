import CleanCopy.Text.Basic

namespace CleanCopy

/-- The names that lead from the root to a node. -/
abbrev Place := List Text

/-- A regular file with its bytes, a directory with its entries in the order of their names, or a
symbolic link with the path it is read as. -/
inductive Node where
  | file (content : ByteArray)
  | dir (entries : List (Text × Node))
  | link (target : Text)
  deriving Inhabited

def insertEntry (name : Text) (node : Node) : List (Text × Node) → List (Text × Node)
  | [] => [(name, node)]
  | (n, old) :: rest =>
    match Text.compare name n with
    | .lt => (name, node) :: (n, old) :: rest
    | .eq => (name, node) :: rest
    | .gt => (n, old) :: insertEntry name node rest

namespace Node

def isDir : Node → Bool
  | dir _ => true
  | _ => false

def isFile : Node → Bool
  | file _ => true
  | _ => false

def entries : Node → List (Text × Node)
  | dir es => es
  | _ => []

def get? : Node → Place → Option Node
  | n, [] => some n
  | n, name :: names => (n.entries.lookup name).bind (get? · names)

/-- Sets the node at a place. Nothing happens where the place has no directory to be in. -/
def put : Node → Place → Node → Node
  | _, [], new => new
  | dir es, name :: names, new =>
    match es.lookup name, names with
    | some child, _ => dir (insertEntry name (child.put names new) es)
    | none, [] => dir (insertEntry name new es)
    | none, _ :: _ => dir es
  | n, _ :: _, _ => n

end Node

end CleanCopy
