import CleanCopy.Text.Path

namespace CleanCopy

inductive Failure where
  | unsupported (path : Path)
  | file (path : Path) (cause : Text)
  | setup (message : Text) (cause : Option Text)
  | configuration (message : Text)
  | pattern (glob : Text) (cause : Text)
  deriving DecidableEq, Repr

namespace Failure

def message : Failure → Text
  | unsupported p => "No scanner available for file: ".toList ++ p.text
  | file p cause => "I/O error on ".toList ++ p.text ++ ": ".toList ++ cause
  | setup m _ => "Setup failed: ".toList ++ m
  | configuration m => "Configuration error: ".toList ++ m
  | pattern glob cause => "Invalid pattern '".toList ++ glob ++ "': ".toList ++ cause

/-- Whether a failure ends the whole run. -/
def isFatal : Failure → Bool
  | setup .. | configuration _ => true
  | _ => false

def cause? : Failure → Option Text
  | file _ cause => some cause
  | setup _ cause => cause
  | pattern _ cause => some cause
  | _ => none

end Failure

end CleanCopy
