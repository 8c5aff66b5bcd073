import CleanCopy.Files.Disk
import CleanCopy.Ignore.Rule

namespace CleanCopy

namespace Ignore

def sharedRules : Path := .ofString ".gitignore"
def privateRules : Path := .ofString ".git/info/exclude"

end Ignore

namespace Disk

def rulesAt (d : Disk) (file : Path) (dir : Place) : List Ignore.Rule :=
  match d.bytesFrom dir file with
  | .ok content => Ignore.rulesOf content
  | .error _ => []

/-- What rule files say about an entry: the one nearest to it that says anything. -/
def verdict (d : Disk) (file : Path) (isDir : Bool) (dir : Place) : Place → Option Ignore.Verdict
  | [] => none
  | name :: names =>
    d.verdict file isDir (dir ++ [name]) names <|>
      Ignore.verdictOf (d.rulesAt file dir)
        (Text.toBytes (Path.joinSegments (name :: names))).toList isDir

/-- Whether an entry is to be ignored. Shared rules come before private ones. -/
def ignores (d : Disk) (place : Place) (isDir : Bool) : Bool :=
  (d.verdict Ignore.sharedRules isDir [] place <|>
    d.verdict Ignore.privateRules isDir [] place) = some .ignored

end Disk

end CleanCopy
