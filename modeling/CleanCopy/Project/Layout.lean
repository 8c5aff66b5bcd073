import CleanCopy.Project.Basic

namespace CleanCopy

inductive Layout where
  | superFlat
  | flat
  | structured
  deriving DecidableEq, Repr, Inhabited

/-- A name without separators of directories. -/
def sanitize (name : Text) : Text := name.map fun c => if c = '/' || c = '\\' then '_' else c

def copyExtension : Text := "txt".toList

def copyName (file : Path) : Text :=
  (Path.withExtension ⟨file.fileName?.getD []⟩ copyExtension).text

namespace Layout

def name : Layout → String
  | superFlat => "super-flat"
  | flat => "flat"
  | structured => "structured"

def all : List Layout := [superFlat, flat, structured]

/-- A file's place below the source, or its bare name when it does not lie there. -/
def relative (file source : Path) : Path :=
  match file.relativeTo? source with
  | some rel => if rel.components.head? = some .up then ⟨file.fileName?.getD []⟩ else rel
  | none => ⟨file.fileName?.getD []⟩

def destination (l : Layout) (projects : Projects) (source dest file : Path) : Path :=
  match l with
  | structured => (dest.join (relative file source)).withExtension copyExtension
  | flat => (dest.join ⟨sanitize (projects.nameFor file)⟩).join ⟨copyName file⟩
  | superFlat => dest.join ⟨sanitize (projects.nameFor file) ++ '.' :: copyName file⟩

end Layout

end CleanCopy
