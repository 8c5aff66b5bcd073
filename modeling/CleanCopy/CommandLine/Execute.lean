import CleanCopy.CommandLine.Command
import CleanCopy.Run.Convert
import CleanCopy.Settings.Nearest

namespace CleanCopy

/-- What a call of the program shows: its exit code, what it prints, and the complaint that ends it. -/
structure Report where
  code : Nat := 0
  output : String := ""
  complaint : Option Text := none
  deriving DecidableEq, Repr, Inhabited

namespace Report

def refused (complaint : Text) : Report := ⟨1, "", some complaint⟩

end Report

namespace SummaryFormat

/-- An outcome as it is printed; only the terminal's form has colours. -/
def write (color : Bool) (f : SummaryFormat) (o : Outcome) : String :=
  match f with
  | terminal => o.summary color
  | json => o.json ++ "\n"

end SummaryFormat

namespace ConvertCommand

def settings (c : ConvertCommand) (d : Disk) : Except Failure Settings :=
  let found := match c.settingsFile with
    | some file => d.settingsOf file
    | none => .ok (d.nearestSettings c.source)
  found.map c.overrides.apply

def rootHint (source : Path) : Text :=
  source.text ++ " is not a project root. Expected one of:
  - A .sln file (for .NET solutions)
  - An angular.json or package.json file (for Angular projects)
Use --allow-any-dir to convert it anyway.".toList

def execute (color : Bool) (c : ConvertCommand) (d : Disk) : Disk × Report :=
  if !d.isDir c.source then
    (d, .refused ("Source directory does not exist: ".toList ++ c.source.text))
  else if !c.allowAnyDirectory && !d.isProjectRoot c.source then
    (d, .refused (rootHint c.source))
  else
    match c.settings d with
    | .error _ =>
      let file := (c.settingsFile.map Path.text).getD []
      (d, .refused ("Failed to load config from ".toList ++ file))
    | .ok s =>
      match Job.run ⟨c.source, c.destination, s⟩ d with
      | (d, .error _) => (d, .refused "Conversion aborted".toList)
      | (d, .ok o) => (d, ⟨if o.hasFailures then 1 else 0, c.format.write color o, none⟩)

end ConvertCommand

namespace Command

def executeInit (force : Bool) (d : Disk) : Disk × Report :=
  let dir := Path.ofString "."
  if d.holds (dir.join ⟨settingsFileName⟩) && !force then
    (d, .refused "Configuration file already exists. Use --force to overwrite.".toList)
  else
    match d.writeTemplate dir with
    | (d, .error e) => (d, .refused e.message)
    | (d, .ok ()) =>
      (d, ⟨0, "Created " ++ String.ofList settingsFileName ++ " configuration file\n", none⟩)

def execute (color : Bool) (c : Command) (d : Disk) : Disk × Report :=
  match c with
  | convert c => c.execute color d
  | init force => executeInit force d

end Command

namespace ArgumentError

def message : ArgumentError → String
  | unknownArgument => "unexpected argument"
  | unknownCommand => "unrecognized subcommand"
  | badValue => "invalid value for an option"
  | needlessValue => "a value for an option that takes none"
  | repeated => "an option that cannot be used twice"
  | missing => "a required argument is missing"
  | helpAsked | versionAsked => ""
  | nothingAsked => "a subcommand is required"

def usage : String :=
  "Usage: srcmirror convert [OPTIONS] <SOURCE> <DESTINATION>
       srcmirror init [--force]
"

/-- A wish for help or for the version is met; anything else is a wrong call. -/
def report : ArgumentError → Report
  | helpAsked => ⟨0, usage, none⟩
  | versionAsked => ⟨0, "srcmirror 0.1.0\n", none⟩
  | e => ⟨2, "", some (e.message ++ "\n\n" ++ usage).toList⟩

end ArgumentError

def execute (color : Bool) (arguments : List Text) (d : Disk) : Disk × Report :=
  match Command.parse arguments with
  | .ok c => c.execute color d
  | .error e => (d, e.report)

end CleanCopy
