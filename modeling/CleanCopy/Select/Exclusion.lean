import CleanCopy.Failure
import CleanCopy.Glob.Basic

namespace CleanCopy

structure ExclusionOptions where
  includeMigrations : Bool := true
  migrationsFolder : Text := "Migrations".toList
  includeInterfaces : Bool := true
  includeTests : Bool := true
  includeGenerated : Bool := true
  extraFolders : List Text := []
  extraPatterns : List Text := []
  deriving DecidableEq, Repr, Inhabited

inductive Rule where
  | folder (name : Text)
  | pattern (glob : Text) (matcher : Pattern)
  deriving DecidableEq, Repr

/-- Build output, editor state, version control and package caches. -/
def baseFolders : List Text :=
  [".git", ".vs", ".vscode", ".idea", "bin", "obj", "packages", "node_modules", "dist",
    ".angular", "__pycache__"].map String.toList

def testFolders : List Text := ["Tests", "Test", "__tests__"].map String.toList

def testGlobs : List Text :=
  ["*Test*.cs", "*Tests*.cs", "*.spec.ts", "*.test.ts", "test_*.py", "*_test.py"].map
    String.toList

def interfaceGlobs : List Text := ["I*.cs", "*.interface.ts"].map String.toList

def generatedGlobs : List Text :=
  ["*.g.cs", "*.g.i.cs", "*.generated.cs", "*.Designer.cs"].map String.toList

namespace ExclusionOptions

def folders (o : ExclusionOptions) : List Text :=
  baseFolders
    ++ (if !o.includeMigrations && !o.migrationsFolder.isEmpty then [o.migrationsFolder] else [])
    ++ (if o.includeTests then [] else testFolders)
    ++ o.extraFolders

def globs (o : ExclusionOptions) : List Text :=
  (if o.includeInterfaces then [] else interfaceGlobs)
    ++ (if o.includeTests then [] else testGlobs)
    ++ (if o.includeGenerated then [] else generatedGlobs)
    ++ o.extraPatterns

end ExclusionOptions

namespace Rule

def ofGlob (glob : Text) : Except Failure Rule :=
  match Glob.compile? glob with
  | some matcher => .ok (.pattern glob matcher)
  | none => .error (.pattern glob "a range in the class runs backwards".toList)

def excludes (folders : List Text) (name : Option Text) : Rule → Bool
  | folder f => folders.contains f
  | pattern _ matcher => name.any matcher.accepts

end Rule

/-- The names of the directories that components pass through before the last one. -/
def foldersOf (cs : List Component) : List Text :=
  cs.dropLast.filterMap fun | .name t => some t | _ => none

/-- Folder rules come before patterns, so that a folder is named as the reason where both apply. -/
def ExclusionOptions.rules (o : ExclusionOptions) : Except Failure (List Rule) :=
  (o.globs.mapM Rule.ofGlob).map (o.folders.map Rule.folder ++ ·)

def excludedBy? (rules : List Rule) (cs : List Component) : Option Rule :=
  let name := match cs.getLast? with
    | some (.name t) => some t
    | _ => none
  rules.find? (·.excludes (foldersOf cs) name)

end CleanCopy
