import CleanCopy.Text.Blank

namespace CleanCopy

/-- One line without its end; `cr` tells whether a carriage return stood before that end. -/
structure Line where
  text : Text
  cr : Bool
  deriving DecidableEq, Repr, Inhabited

namespace Line

def withText (l : Line) (t : Text) : Line := { l with text := t }

def isBlank (l : Line) : Bool := l.text.isBlank

def parse (raw : Text) : Line :=
  if raw.getLast? = some '\r' then ⟨raw.dropLast, true⟩ else ⟨raw, false⟩

def render (l : Line) : Text := if l.cr then l.text ++ ['\r'] else l.text

end Line

/-- A text as lines; `closed` tells whether the last line ends in a line feed. -/
structure Document where
  lines : List Line
  closed : Bool
  deriving DecidableEq, Repr, Inhabited

namespace Document

def parse (t : Text) : Document :=
  if t.isEmpty then ⟨[], false⟩
  else if t.getLast? = some '\n' then ⟨(t.dropLast.splitOn '\n').map Line.parse, true⟩
  else ⟨(t.splitOn '\n').map Line.parse, false⟩

def renderLines : List Line → Text
  | [] => []
  | [l] => l.render
  | l :: ls => l.render ++ '\n' :: renderLines ls

def render (d : Document) : Text :=
  if d.closed && !d.lines.isEmpty then renderLines d.lines ++ ['\n'] else renderLines d.lines

def withLines (d : Document) (ls : List Line) : Document := { d with lines := ls }

/-- Rewrites every line; for languages without literals that span lines. -/
def mapLines (f : Text → Text) (d : Document) : Document :=
  d.withLines (d.lines.map fun l => l.withText (f l.text))

end Document

end CleanCopy
