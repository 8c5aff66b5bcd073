import CleanCopy.Scrub.Comments
import CleanCopy.Scrub.Docstrings
import CleanCopy.Scrub.Passes
import CleanCopy.Scrub.Spans

namespace CleanCopy

/-- The kinds of source text, in the order in which they claim file names. -/
inductive Kind where
  | cSharp
  | typeScript
  | python
  | html
  | css
  deriving DecidableEq, Repr, Inhabited

/-- What goes besides plain comments. -/
structure ScrubOptions where
  stripDocs : Bool := false
  stripRegions : Bool := true
  stripBlankLines : Bool := false
  compact : Bool := false
  deriving DecidableEq, Repr, Inhabited

namespace ScrubOptions

def minimal : ScrubOptions := ⟨false, false, false, false⟩

def everything : ScrubOptions := ⟨true, true, true, true⟩

end ScrubOptions

namespace Kind

def all : List Kind := [cSharp, typeScript, python, html, css]

def name : Kind → String
  | cSharp => "C#"
  | typeScript => "TypeScript"
  | python => "Python"
  | html => "HTML"
  | css => "CSS"

def suffixes : Kind → List String
  | cSharp => [".cs"]
  | typeScript => [".ts", ".component.ts"]
  | python => [".py"]
  | html => [".html", ".htm", ".component.html"]
  | css => [".css", ".scss", ".component.css", ".component.scss"]

def handles (k : Kind) (fileName : Text) : Bool :=
  k.suffixes.any fun suffix => suffix.toList.isSuffixOf (Text.asciiLower fileName)

def ofFileName? (fileName : Text) : Option Kind := all.find? (·.handles fileName)

/-- The delimiters of a kind; markup and style sheets have none that lines are scanned for. -/
def lexicon : Kind → Lexicon
  | cSharp => .cSharp
  | typeScript => .typeScript
  | python => .python
  | html | css => .plain

end Kind

namespace Text

/-- A comment that opens like a template instruction. -/
def isTemplateMark (body : Text) : Bool := body.head?.any ['(', '=', '*', '+'].contains

def markupComments (t : Text) : List Span :=
  blockSpans ['<', '!', '-', '-'] ['-', '-', '>'] isTemplateMark 0 t

def styleComments (t : Text) : List Span :=
  blockSpans ['/', '*'] ['*', '/'] (fun _ => false) 0 t

def compactMarkup (t : Text) : Text := (spaceOut (closeUp '>' '<' t)).trimEnd

def compactStyle (t : Text) : Text :=
  Text.trim (tighten ['{', '}', ':', ';', ','].contains (spaceOut t))

end Text

namespace Document

def passIf (wanted : Bool) (pass : Document → Document) (d : Document) : Document :=
  if wanted then pass d else d

def scrubCSharp (o : ScrubOptions) (d : Document) : Document :=
  d.stripComments .cSharp .plain
    |>.passIf o.stripDocs (stripComments .cSharp .doc)
    |>.passIf o.stripRegions (removeRegions .cSharp)
    |>.passIf o.stripBlankLines (removeBlankLines .cSharp)
    |>.passIf o.compact (compact .cSharp false)

def scrubTypeScript (o : ScrubOptions) (d : Document) : Document :=
  d.stripComments .typeScript .plain
    |>.passIf o.stripDocs (stripComments .typeScript .doc)
    |>.passIf o.stripBlankLines (removeBlankLines .typeScript)
    |>.passIf o.compact (compact .typeScript true)

/-- Indentation carries meaning, so compaction trims line ends only. -/
def scrubPython (o : ScrubOptions) (d : Document) : Document :=
  d.stripComments .python .plain
    |>.passIf o.stripDocs removeDocstrings
    |>.passIf o.stripBlankLines (removeBlankLines .python)
    |>.passIf o.compact (trimLines .python)

/-- Cuts comments that were found in the whole text and compacts line by line. -/
def scrubSpans (spans : List Span) (tight : Text → Text) (o : ScrubOptions) (d : Document) :
    Document :=
  d.removeSpans spans
    |>.passIf o.stripBlankLines (removeBlankLines .plain)
    |>.passIf o.compact (mapLines tight)

end Document

def Kind.scrub (k : Kind) (o : ScrubOptions) (t : Text) : Text :=
  let d := Document.parse t
  let cleaned := match k with
    | cSharp => d.scrubCSharp o
    | typeScript => d.scrubTypeScript o
    | python => d.scrubPython o
    | html => d.scrubSpans t.markupComments Text.compactMarkup o
    | css => d.scrubSpans t.styleComments Text.compactStyle o
  cleaned.render

end CleanCopy
