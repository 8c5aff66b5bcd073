import CleanCopy.Text.Basic

namespace CleanCopy

inductive ArgumentError where
  | unknownArgument
  | unknownCommand
  | badValue
  | needlessValue
  | repeated
  | missing
  | helpAsked
  | versionAsked
  | nothingAsked
  deriving DecidableEq, Repr

/-- What an option stands for; a value has to pass a check. -/
inductive OptionForm where
  | help
  | version
  | flag
  | count
  | value (accepts : Text → Bool)

structure OptionSpec where
  long : String
  short : Option Char
  form : OptionForm

structure Grammar where
  options : List OptionSpec
  positionals : List (Text → Bool)

inductive Pending where
  | option (o : OptionSpec) (value : Option Text)
  | positional (accepts : Text → Bool) (value : Text)

structure Matched where
  given : List (String × Text) := []
  positionals : List Text := []
  deriving DecidableEq, Repr, Inhabited

namespace Matched

def has (m : Matched) (long : String) : Bool := m.given.any (·.1 == long)

def count (m : Matched) (long : String) : Nat := (m.given.filter (·.1 == long)).length

def value? (m : Matched) (long : String) : Option Text := m.given.lookup long

/-- Notes an option. Only one that is counted may be given twice. -/
def record (m : Matched) (o : OptionSpec) (value : Text) : Except ArgumentError Matched :=
  match o.form with
  | .help => .error .helpAsked
  | .version => .error .versionAsked
  | .count => .ok { m with given := m.given ++ [(o.long, value)] }
  | .flag =>
    if m.has o.long then .error .repeated
    else .ok { m with given := m.given ++ [(o.long, value)] }
  | .value accepts =>
    if m.has o.long then .error .repeated
    else if accepts value then .ok { m with given := m.given ++ [(o.long, value)] }
    else .error .badValue

def settle (m : Matched) : Option Pending → Except ArgumentError Matched
  | none => .ok m
  | some (.option _ none) => .error .badValue
  | some (.option o (some v)) => m.record o v
  | some (.positional accepts v) =>
    if accepts v then .ok { m with positionals := m.positionals ++ [v] } else .error .badValue

end Matched

structure ArgumentReading where
  matched : Matched := {}
  pending : Option Pending := none
  position : Nat := 0

namespace ArgumentReading

def option (r : ArgumentReading) (o : OptionSpec) (value : Option Text) :
    Except ArgumentError ArgumentReading := do
  let m ← r.matched.settle r.pending
  match o.form, value with
  | .value _, none => return { r with matched := m, pending := some (.option o none) }
  | _, value => return { r with matched := ← m.record o (value.getD []), pending := none }

def long (g : Grammar) (r : ArgumentReading) (body : Text) :
    Except ArgumentError ArgumentReading :=
  let (name, value) := match Text.cut? ['='] body with
    | some (name, value) => (name, some value)
    | none => (body, none)
  match g.options.find? (·.long.toList = name) with
  | none => .error .unknownArgument
  | some o =>
    match o.form, value with
    | .value _, value => r.option o value
    | _, none => r.option o none
    | _, some _ => .error .needlessValue

/-- Options in short form; one that takes a value takes the rest, without a leading equals sign. -/
def short (g : Grammar) (r : ArgumentReading) : Text → Except ArgumentError ArgumentReading
  | [] => .ok r
  | c :: cs =>
    match g.options.find? (·.short = some c) with
    | none => .error .unknownArgument
    | some o =>
      match o.form with
      | .value _ =>
        match cs with
        | [] => r.option o none
        | '=' :: v => r.option o (some v)
        | v => r.option o (some v)
      | _ => do short g (← r.option o none) cs

def positional (g : Grammar) (r : ArgumentReading) (arg : Text) :
    Except ArgumentError ArgumentReading :=
  match g.positionals[r.position]? with
  | none => .error .unknownArgument
  | some accepts => do
    let m ← r.matched.settle r.pending
    return { matched := m, pending := some (.positional accepts arg), position := r.position + 1 }

def plain (g : Grammar) (r : ArgumentReading) (arg : Text) :
    Except ArgumentError ArgumentReading :=
  match r.pending with
  | some (.option o none) => .ok { r with pending := some (.option o (some arg)) }
  | _ => r.positional g arg

def step (g : Grammar) (r : ArgumentReading) (arg : Text) :
    Except ArgumentError ArgumentReading :=
  match arg with
  | '-' :: '-' :: body => r.long g body
  | ['-'] => r.plain g arg
  | '-' :: flags => r.short g flags
  | arg => r.plain g arg

/-- All arguments; behind a double dash all are positional. -/
def steps (g : Grammar) (r : ArgumentReading) : List Text → Except ArgumentError ArgumentReading
  | [] => .ok r
  | ['-', '-'] :: rest => rest.foldlM (·.positional g ·) r
  | arg :: rest => do steps g (← r.step g arg) rest

end ArgumentReading

/-- The options and positional arguments of a command, of which none may be missing. -/
def Grammar.read (g : Grammar) (args : List Text) : Except ArgumentError Matched := do
  let r ← ArgumentReading.steps g {} args
  let m ← r.matched.settle r.pending
  if m.positionals.length < g.positionals.length then .error .missing else return m

end CleanCopy
