import CleanCopy.Ignore.Read
import CleanCopy.Text.Blank
import CleanCopy.Text.Bytes

namespace CleanCopy.Ignore

inductive Verdict where
  | ignored
  | kept
  deriving DecidableEq, Repr

/-- A line of an ignore file: the paths it is about, whether only as directories, and what
happens to them. -/
structure Rule where
  glob : Glob
  dirsOnly : Bool
  verdict : Verdict

namespace Rule

def splitStart (line : Text) : Verdict × Bool × Text :=
  match line with
  | '\\' :: '!' :: rest => (.ignored, false, '!' :: rest)
  | '\\' :: '#' :: rest => (.ignored, false, '#' :: rest)
  | '!' :: '/' :: rest => (.kept, true, rest)
  | '!' :: rest => (.kept, false, rest)
  | '/' :: rest => (.ignored, true, rest)
  | rest => (.ignored, false, rest)

/-- Splits off a slash at the end, with the backslash before it. -/
def splitEnd (body : Text) : Bool × Text :=
  if body.getLast? = some '/' then
    let body := body.dropLast
    (true, if body.getLast? = some '\\' then body.dropLast else body)
  else (false, body)

/-- The glob of a line in full: a bare name is looked for in every directory, and two stars at the
end are about what lies below a directory. -/
def spell (bound : Bool) (body : Text) : Text :=
  let stars := ['*', '*']
  let wide := if bound || body.contains '/' || body = stars then body else stars ++ '/' :: body
  if ('/' :: stars).isSuffixOf wide then wide ++ ['/', '*'] else wide

/-- The rule of a line; nothing for a remark, a blank line, or a glob that cannot be read. -/
def ofLine? (line : Text) : Option Rule :=
  if line.head? = some '#' then none
  else
    let line := if ['\\', ' '].isSuffixOf line then line else line.trimEnd
    if line.isEmpty then none
    else
      let (verdict, bound, body) := splitStart line
      let (dirsOnly, body) := splitEnd body
      (Glob.read? (spell bound body)).map fun glob => ⟨glob, dirsOnly, verdict⟩

def appliesTo (r : Rule) (path : List UInt8) (isDir : Bool) : Bool :=
  (isDir || !r.dirsOnly) && r.glob.accepts path

end Rule

/-- The rules of an ignore file. A byte order mark may stand before the first line. -/
def rulesOf (content : ByteArray) : List Rule :=
  match Text.linesOfBytes content.toList with
  | [] => []
  | first :: rest => (first.dropWhile (· = '\uFEFF') :: rest).filterMap Rule.ofLine?

def verdictOf (rules : List Rule) (path : List UInt8) (isDir : Bool) : Option Verdict :=
  (rules.reverse.find? (·.appliesTo path isDir)).map Rule.verdict

end CleanCopy.Ignore
