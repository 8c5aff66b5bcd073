import CleanCopy.Xml.Event
import CleanCopy.Xml.Reference

namespace CleanCopy.Xml

/-- What no name holds; names in documents are narrower still. -/
def isNameChar (c : Char) : Bool :=
  !isSpace c && c ∉ ['<', '>', '/', '!', '?', '=', '\'', '\"', '&', ';']

abbrev Name := { t : Text // t ≠ [] ∧ t.all isNameChar = true }

abbrev Gap := { t : Text // t.all isSpace = true }

/-- The names that need no declaration. -/
def predefined : List (Text × Char) :=
  [("lt".toList, '<'), ("gt".toList, '>'), ("amp".toList, '&'), ("quot".toList, '\"'),
    ("apos".toList, '\'')]

/-- A character of a text as it is written. -/
inductive Letter where
  | plain (c : Char) (h : c ≠ '<' ∧ c ≠ '&')
  | named (name : Text) (c : Char) (h : (name, c) ∈ predefined)
  | decimal (digits : Text) (c : Char) (h : number? 10 digits = some c.toNat) (hc : c ≠ '\x00')
  | hex (digits : Text) (c : Char) (h : number? 16 digits = some c.toNat) (hc : c ≠ '\x00')
  /-- an entity that the document has to declare -/
  | entity (name : Name)

namespace Letter

def write : Letter → Text
  | plain c _ => [c]
  | named name _ _ => '&' :: name ++ [';']
  | decimal digits _ _ _ => '&' :: '#' :: digits ++ [';']
  | hex digits _ _ _ => '&' :: '#' :: 'x' :: digits ++ [';']
  | entity name => '&' :: name.val ++ [';']

/-- The character it stands for. -/
def char? : Letter → Option Char
  | plain c _ | named _ c _ | decimal _ c _ _ | hex _ c _ _ => some c
  | entity _ => none

end Letter

/-- A value in quotes after a name, and the space around. -/
structure Attribute where
  gap : Gap
  name : Name
  before : Gap
  after : Gap
  quote : Char
  value : Text
  gap_ne_nil : gap.val ≠ []
  isQuote : quote = '\'' ∨ quote = '\"'
  quote_notMem : quote ∉ value

def Attribute.write (a : Attribute) : Text :=
  a.gap.val ++ a.name.val ++ a.before.val ++ '=' :: a.after.val ++
    a.quote :: a.value ++ [a.quote]

structure Tag where
  name : Name
  attributes : List Attribute
  gap : Gap

def Tag.inside (tag : Tag) : Text :=
  tag.name.val ++ tag.attributes.flatMap Attribute.write ++ tag.gap.val

/-- While `n` brackets are open, each one is closed and none that is not open. -/
def nested (n : Nat) : Text → Bool
  | [] => n == 0
  | c :: cs =>
    if c = '<' then nested (n + 1) cs
    else if c = '>' then n != 0 && nested (n - 1) cs
    else nested n cs

/-- Markup that no other markup is inside of. A reader knows no quotes within a declaration, so
that it is the brackets of one that have to match. -/
inductive Item where
  | cdata (body : Text) (h : ¬ "]]>".toList <:+: body)
  | comment (body : Text) (h : ¬ "--".toList <:+: body)
  | instruction (body : Text) (h : ¬ "?>".toList <:+: '?' :: body)
  | doctype (body : Text) (h : nested 0 body = true) (hb : body.any (!isSpace ·) = true)
  | empty (tag : Tag)

namespace Item

/-- What is written behind its first bracket. -/
def inside : Item → Text
  | cdata body _ => "![CDATA[".toList ++ body ++ "]]>".toList
  | comment body _ => "!--".toList ++ body ++ "-->".toList
  | instruction body _ => '?' :: body ++ "?>".toList
  | doctype body _ _ => "!DOCTYPE".toList ++ body ++ ['>']
  | empty tag => tag.inside ++ "/>".toList

def write (i : Item) : Text := '<' :: i.inside

def event : Item → Event
  | cdata body _ => .cdata body
  | comment _ _ | instruction _ _ | doctype _ _ _ => .aside
  | empty tag => .empty tag.name.val

/-- The name of an element without content. -/
def name? : Item → Option Text
  | empty tag => some tag.name.val
  | cdata _ _ | comment _ _ | instruction _ _ | doctype _ _ _ => none

/-- The text that it adds to the element it is in. -/
def value : Item → Text
  | cdata body _ => body
  | comment _ _ | instruction _ _ | doctype _ _ _ | empty _ => []

end Item

/-- What stands between two tags: markup with text in front, and text at the end. A text may be
empty. -/
inductive Content where
  | text (letters : List Letter)
  | item (letters : List Letter) (i : Item) (rest : Content)
  | element (letters : List Letter) (tag : Tag) (inner : Content) (gap : Gap) (rest : Content)

def writeText (letters : List Letter) : Text := letters.flatMap Letter.write

def textEvents : List Letter → List Event
  | [] => []
  | l :: ls => [.text (writeText (l :: ls))]

def textValue (letters : List Letter) : Text := letters.filterMap Letter.char?

namespace Tag

def start (tag : Tag) : Text := '<' :: tag.inside ++ ['>']

def stop (tag : Tag) (gap : Gap) : Text := '<' :: '/' :: tag.name.val ++ gap.val ++ ['>']

end Tag

namespace Content

def write : Content → Text
  | text ls => writeText ls
  | item ls i rest => writeText ls ++ i.write ++ rest.write
  | element ls tag inner gap rest =>
    writeText ls ++ tag.start ++ inner.write ++ tag.stop gap ++ rest.write

def events : Content → List Event
  | text ls => textEvents ls
  | item ls i rest => textEvents ls ++ i.event :: rest.events
  | element ls tag inner _ rest =>
    textEvents ls ++ .start tag.name.val :: inner.events ++ .stop tag.name.val :: rest.events

/-- All text in it, references resolved. -/
def value : Content → Text
  | text ls => textValue ls
  | item ls i rest => textValue ls ++ i.value ++ rest.value
  | element ls _ inner _ rest => textValue ls ++ inner.value ++ rest.value

end Content

/-- A document, with or without a byte-order mark in front. Where a declaration stands and how many
elements there are is left open. -/
structure Document where
  marked : Bool
  content : Content
  head?_ne : content.write.head? ≠ some '\uFEFF'

namespace Document

def mark (d : Document) : Text := if d.marked then ['\uFEFF'] else []

def write (d : Document) : Text := d.mark ++ d.content.write

end Document

end CleanCopy.Xml
