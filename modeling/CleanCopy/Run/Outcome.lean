import CleanCopy.Text.Basic

namespace CleanCopy

/-- The counts of a run and the messages of its failures, in order. -/
structure Outcome where
  total : Nat := 0
  succeeded : Nat := 0
  failed : Nat := 0
  errors : List Text := []
  deriving DecidableEq, Repr, Inhabited

namespace Outcome

def ofTotal (n : Nat) : Outcome := { total := n }

def success (o : Outcome) : Outcome := { o with succeeded := o.succeeded + 1 }

def failure (message : Text) (o : Outcome) : Outcome :=
  { o with failed := o.failed + 1, errors := o.errors ++ [message] }

def isComplete (o : Outcome) : Bool := o.total == o.succeeded + o.failed

def hasFailures (o : Outcome) : Bool := 0 < o.failed

def isEmpty (o : Outcome) : Bool := o.total == 0

end Outcome

inductive Style where
  | yellow
  | bold
  | green
  | boldRed
  deriving DecidableEq, Repr

namespace Style

def code : Style → String
  | yellow => "33"
  | bold => "1"
  | green => "32"
  | boldRed => "1;31"

def paint (color : Bool) (s : Style) (t : String) : String :=
  if color then "\x1b[" ++ s.code ++ "m" ++ t ++ "\x1b[0m" else t

end Style

namespace Outcome

def summary (color : Bool) (o : Outcome) : String :=
  if o.isEmpty then
    Style.yellow.paint color "No files found to process with current settings." ++ "\n"
  else
    let failed := toString o.failed
    Style.bold.paint color "Conversion complete" ++ "\n"
      ++ "  Total files:  " ++ toString o.total ++ "\n"
      ++ "  Converted:    " ++ Style.green.paint color (toString o.succeeded) ++ "\n"
      ++ "  Errors:       "
      ++ (if o.hasFailures then Style.boldRed.paint color failed else failed) ++ "\n"
      ++ (if o.errors.isEmpty then ""
        else "\n" ++ Style.boldRed.paint color "Errors:" ++ "\n"
          ++ String.join (o.errors.map fun e => "  - " ++ String.ofList e ++ "\n"))

def jsonChar (c : Char) : String :=
  let hex (n : Nat) : Char := (Nat.digitChar n)
  if c = '\"' then "\\\""
  else if c = '\\' then "\\\\"
  else if c = '\n' then "\\n"
  else if c = '\r' then "\\r"
  else if c = '\t' then "\\t"
  else if c = '\x08' then "\\b"
  else if c = '\x0c' then "\\f"
  else if c.toNat < 0x20 then
    "\\u00" ++ String.ofList [hex (c.toNat / 16), hex (c.toNat % 16)]
  else String.ofList [c]

def jsonString (t : Text) : String := "\"" ++ String.join (t.map jsonChar) ++ "\""

/-- The counts and messages of a run as JSON, indented by two spaces. -/
def json (o : Outcome) : String :=
  let field (name value : String) := "  \"" ++ name ++ "\": " ++ value
  let errors :=
    if o.errors.isEmpty then "[]"
    else "[\n" ++ ",\n".intercalate (o.errors.map fun e => "    " ++ jsonString e) ++ "\n  ]"
  "\x7b\n" ++ ",\n".intercalate [field "total" (toString o.total),
    field "succeeded" (toString o.succeeded), field "failed" (toString o.failed),
    field "errors" errors] ++ "\n\x7d"

end Outcome

end CleanCopy
