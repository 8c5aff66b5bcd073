import CleanCopy.Project.Layout
import CleanCopy.Scrub.Kind
import CleanCopy.Select.Exclusion

namespace CleanCopy

structure OutputOptions where
  layout : Layout := .structured
  respectIgnoreFiles : Bool := false
  deriving DecidableEq, Repr, Inhabited

/-- What a run is asked to do, its source and destination apart. -/
structure Settings where
  exclusion : ExclusionOptions := {}
  scrub : ScrubOptions := {}
  output : OutputOptions := {}
  deriving DecidableEq, Repr, Inhabited

/-- Values given on the command line; what is absent or false leaves the settings alone. -/
structure Overrides where
  layout : Option Layout := none
  excludeMigrations : Bool := false
  migrationsFolder : Option Text := none
  excludeInterfaces : Bool := false
  excludeTests : Bool := false
  excludeGenerated : Bool := false
  stripDocs : Bool := false
  keepRegions : Bool := false
  stripBlankLines : Bool := false
  compact : Bool := false
  respectIgnoreFiles : Bool := false
  deriving DecidableEq, Repr, Inhabited

def Overrides.apply (o : Overrides) (s : Settings) : Settings where
  exclusion := { s.exclusion with
    includeMigrations := s.exclusion.includeMigrations && !o.excludeMigrations
    migrationsFolder := o.migrationsFolder.getD s.exclusion.migrationsFolder
    includeInterfaces := s.exclusion.includeInterfaces && !o.excludeInterfaces
    includeTests := s.exclusion.includeTests && !o.excludeTests
    includeGenerated := s.exclusion.includeGenerated && !o.excludeGenerated }
  scrub := {
    stripDocs := s.scrub.stripDocs || o.stripDocs
    stripRegions := s.scrub.stripRegions && !o.keepRegions
    stripBlankLines := s.scrub.stripBlankLines || o.stripBlankLines
    compact := s.scrub.compact || o.compact }
  output := {
    layout := o.layout.getD s.output.layout
    respectIgnoreFiles := s.output.respectIgnoreFiles || o.respectIgnoreFiles }

def settingsFileName : Text := ".srcmirror.toml".toList

def settingsTemplate : String :=
  "# srcmirror configuration

[filter]
# Set to false to skip the migrations folder named below
include_migrations = true
migrations_folder = \"Migrations\"
include_interfaces = true
include_tests = true
include_generated = true
# Additional folder names and filename globs to skip
extra_folders = []
extra_patterns = []

[scrub]
strip_docs = false
strip_regions = true
strip_empty_lines = false
optimize_whitespace = false

[output]
# \"super-flat\", \"flat\" or \"structured\"
layout = \"structured\"
respect_gitignore = false
"

end CleanCopy
