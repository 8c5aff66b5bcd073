import CleanCopy.CommandLine.Grammar
import CleanCopy.Settings.Basic

namespace CleanCopy

inductive SummaryFormat where
  | json
  | terminal
  deriving DecidableEq, Repr, Inhabited

namespace SummaryFormat

def all : List SummaryFormat := [json, terminal]

def name : SummaryFormat → String
  | json => "json"
  | terminal => "terminal"

end SummaryFormat

structure ConvertCommand where
  source : Path
  destination : Path
  settingsFile : Option Path := none
  overrides : Overrides := {}
  format : SummaryFormat := .terminal
  allowAnyDirectory : Bool := false
  verbosity : Nat := 0
  deriving DecidableEq, Repr, Inhabited

inductive Command where
  | convert (c : ConvertCommand)
  | init (force : Bool)
  deriving DecidableEq, Repr

namespace Command

def isPath (t : Text) : Bool := !t.isEmpty

def helpOption : OptionSpec := ⟨"help", some 'h', .help⟩

def topOptions : List OptionSpec := [helpOption, ⟨"version", some 'V', .version⟩]

def initGrammar : Grammar := ⟨[helpOption, ⟨"force", some 'f', .flag⟩], []⟩

def convertGrammar : Grammar where
  options := [
    helpOption,
    ⟨"layout", some 'l', .value fun t => Layout.all.any (·.name.toList = t)⟩,
    ⟨"exclude-migrations", none, .flag⟩,
    ⟨"migrations-folder", none, .value fun _ => true⟩,
    ⟨"exclude-interfaces", none, .flag⟩,
    ⟨"exclude-tests", none, .flag⟩,
    ⟨"exclude-generated", none, .flag⟩,
    ⟨"strip-docs", none, .flag⟩,
    ⟨"keep-regions", none, .flag⟩,
    ⟨"strip-empty-lines", none, .flag⟩,
    ⟨"optimize-whitespace", none, .flag⟩,
    ⟨"respect-gitignore", none, .flag⟩,
    ⟨"config", some 'c', .value isPath⟩,
    ⟨"format", some 'f', .value fun t => SummaryFormat.all.any (·.name.toList = t)⟩,
    ⟨"allow-any-dir", none, .flag⟩,
    ⟨"verbose", some 'v', .count⟩]
  positionals := [isPath, isPath]

def ofMatched (m : Matched) : ConvertCommand where
  source := ⟨m.positionals[0]?.getD []⟩
  destination := ⟨m.positionals[1]?.getD []⟩
  settingsFile := (m.value? "config").map Path.mk
  overrides := {
    layout := (m.value? "layout").bind fun t => Layout.all.find? (·.name.toList = t)
    excludeMigrations := m.has "exclude-migrations"
    migrationsFolder := m.value? "migrations-folder"
    excludeInterfaces := m.has "exclude-interfaces"
    excludeTests := m.has "exclude-tests"
    excludeGenerated := m.has "exclude-generated"
    stripDocs := m.has "strip-docs"
    keepRegions := m.has "keep-regions"
    stripBlankLines := m.has "strip-empty-lines"
    compact := m.has "optimize-whitespace"
    respectIgnoreFiles := m.has "respect-gitignore" }
  format := ((m.value? "format").bind fun t =>
    SummaryFormat.all.find? (·.name.toList = t)).getD .terminal
  allowAnyDirectory := m.has "allow-any-dir"
  verbosity := min (m.count "verbose") 255

def convertWord : Text := "convert".toList
def initWord : Text := "init".toList
def helpWord : Text := "help".toList

/-- A call for help on at most one command. -/
def helpError : List Text → ArgumentError
  | [] => .helpAsked
  | [word] => if [convertWord, initWord, helpWord].contains word then .helpAsked else .unknownCommand
  | _ => .unknownCommand

/-- The first argument behind a double dash is no command there. -/
def afterDashes : List Text → ArgumentError
  | [] => .nothingAsked
  | word :: _ =>
    if [convertWord, initWord, helpWord].contains word then .unknownArgument else .unknownCommand

def parse : List Text → Except ArgumentError Command
  | [] => .error .nothingAsked
  | word :: rest =>
    if word = convertWord then (convertGrammar.read rest).map fun m => .convert (ofMatched m)
    else if word = initWord then (initGrammar.read rest).map fun m => .init (m.has "force")
    else if word = helpWord then .error (helpError rest)
    else if word = ['-', '-'] then .error (afterDashes rest)
    else
      match word with
      | '-' :: _ :: _ =>
        match ArgumentReading.step ⟨topOptions, []⟩ {} word with
        | .error e => .error e
        | .ok _ => .error .unknownArgument
      | _ => .error .unknownCommand

end Command

end CleanCopy
