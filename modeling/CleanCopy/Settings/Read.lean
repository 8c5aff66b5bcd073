import CleanCopy.Settings.Basic
import CleanCopy.Toml.Document

namespace CleanCopy

namespace Toml.Scalar

/-- Whether a number fits the widest type a reader knows. -/
def isReadable : Scalar → Bool
  | integer n => -(Nat.pow 2 127 : Int) ≤ n && n < (Nat.pow 2 128 : Int)
  | float inRange => inRange
  | _ => true

end Toml.Scalar

namespace Toml.Value

mutual

/-- Whether every number in a value fits. -/
def isReadable : Value → Bool
  | string _ => true
  | scalar s => s.isReadable
  | array _ items => areReadable items
  | table _ es => entriesReadable es

def areReadable : List Value → Bool
  | [] => true
  | v :: vs => isReadable v && areReadable vs

def entriesReadable : List (Text × Value) → Bool
  | [] => true
  | (_, v) :: es => isReadable v && entriesReadable es

end

def text? : Value → Option Text
  | string t => some t
  | _ => none

def boolean? : Value → Option Bool
  | scalar (.boolean b) => some b
  | _ => none

def texts? : Value → Option (List Text)
  | array _ items => items.mapM text?
  | _ => none

/-- The values of named fields, from a table or from an array in the order of the names. Other
keys only have to be readable, and a moment counts as a table without any of the keys. -/
def fields? (names : List String) : Value → Option (List (Option Value))
  | table _ es =>
    if (es.filter fun (k, _) => !(names.map String.toList).contains k).all (isReadable ·.2) then
      some (names.map fun n => Entries.get? es n.toList)
    else none
  | array _ items => some (names.zipIdx.map fun (_, i) => items[i]?)
  | scalar .moment => some (names.map fun _ => none)
  | _ => none

def orDefault {α : Type} (read : Value → Option α) (d : α) : Option Value → Option α
  | none => some d
  | some v => read v

/-- A layout by its name, which may also be the one key of a table with nothing under it. -/
def layout? : Value → Option Layout
  | string t => Layout.all.find? (·.name.toList = t)
  | table _ [(k, array _ [])] => Layout.all.find? (·.name.toList = k)
  | table _ [(k, table _ [])] => Layout.all.find? (·.name.toList = k)
  | _ => none

def exclusion? (v : Value) : Option ExclusionOptions := do
  let d : ExclusionOptions := {}
  match ← v.fields? ["include_migrations", "migrations_folder", "include_interfaces",
      "include_tests", "include_generated", "extra_folders", "extra_patterns"] with
  | [migrations, folder, interfaces, tests, generated, folders, patterns] =>
    return {
      includeMigrations := ← orDefault boolean? d.includeMigrations migrations
      migrationsFolder := ← orDefault text? d.migrationsFolder folder
      includeInterfaces := ← orDefault boolean? d.includeInterfaces interfaces
      includeTests := ← orDefault boolean? d.includeTests tests
      includeGenerated := ← orDefault boolean? d.includeGenerated generated
      extraFolders := ← orDefault texts? d.extraFolders folders
      extraPatterns := ← orDefault texts? d.extraPatterns patterns }
  | _ => none

def scrub? (v : Value) : Option ScrubOptions := do
  let d : ScrubOptions := {}
  match ← v.fields? ["strip_docs", "strip_regions", "strip_empty_lines",
      "optimize_whitespace"] with
  | [docs, regions, blankLines, compact] =>
    return {
      stripDocs := ← orDefault boolean? d.stripDocs docs
      stripRegions := ← orDefault boolean? d.stripRegions regions
      stripBlankLines := ← orDefault boolean? d.stripBlankLines blankLines
      compact := ← orDefault boolean? d.compact compact }
  | _ => none

def output? (v : Value) : Option OutputOptions := do
  let d : OutputOptions := {}
  match ← v.fields? ["layout", "respect_gitignore"] with
  | [layout, ignoreFiles] =>
    return {
      layout := ← orDefault layout? d.layout layout
      respectIgnoreFiles := ← orDefault boolean? d.respectIgnoreFiles ignoreFiles }
  | _ => none

def settings? (v : Value) : Option Settings := do
  match ← v.fields? ["filter", "scrub", "output"] with
  | [exclusion, scrub, output] =>
    return {
      exclusion := ← orDefault exclusion? {} exclusion
      scrub := ← orDefault scrub? {} scrub
      output := ← orDefault output? {} output }
  | _ => none

end Toml.Value

def Settings.parse (t : Text) : Except Failure Settings :=
  match (Toml.parse? t).bind Toml.Value.settings? with
  | some s => .ok s
  | none => .error (.configuration ("Failed to parse ".toList ++ settingsFileName))

end CleanCopy
