import CleanCopy.Text.Basic

namespace CleanCopy

/-- A path as it is spelled; what it means is the list of its components. -/
structure Path where
  text : Text
  deriving DecidableEq, Repr, Inhabited

/-- A step of a path: the root, the directory itself, the one above, or a name. -/
inductive Component where
  | root
  | here
  | up
  | name (text : Text)
  deriving DecidableEq, Repr

namespace Component

def text : Component → Text
  | root => ['/']
  | here => ['.']
  | up => ['.', '.']
  | name t => t

def rank : Component → Nat
  | root => 0
  | here => 1
  | up => 2
  | name _ => 3

def compare : Component → Component → Ordering
  | name s, name t => Text.compare s t
  | a, b => Ord.compare a.rank b.rank

/-- The meaning of a stretch between slashes; the empty one and `.` mean nothing. -/
def ofSegment? : Text → Option Component
  | [] => none
  | ['.'] => none
  | ['.', '.'] => some up
  | t => some (name t)

def compareAll : List Component → List Component → Ordering
  | [], [] => .eq
  | [], _ :: _ => .lt
  | _ :: _, [] => .gt
  | a :: as, b :: bs => (compare a b).then (compareAll as bs)

end Component

namespace Path

def ofString (s : String) : Path := ⟨s.toList⟩

def splitLead : Text → Option Component × Text
  | '/' :: body => (some .root, body)
  | ['.'] => (some .here, [])
  | '.' :: '/' :: body => (some .here, '/' :: body)
  | t => (none, t)

def lead (p : Path) : Option Component := (splitLead p.text).1

/-- The stretches between slashes after the lead, idle ones included. -/
def segments (p : Path) : List Text := (splitLead p.text).2.splitOn '/'

def components (p : Path) : List Component :=
  p.lead.toList ++ p.segments.filterMap Component.ofSegment?

def isAbsolute (p : Path) : Bool := p.lead = some .root

def joinSegments : List Text → Text
  | [] => []
  | [s] => s
  | s :: ss => s ++ '/' :: joinSegments ss

/-- Drops the stretches at the end that mean nothing. -/
def dropIdle : List Text → List Text
  | [] => []
  | s :: ss =>
    match dropIdle ss with
    | [] => if (Component.ofSegment? s).isNone then [] else [s]
    | ss => s :: ss

def withSegments (p : Path) (ss : List Text) : Path :=
  ⟨(p.lead.map Component.text).getD [] ++ joinSegments ss⟩

def fileName? (p : Path) : Option Text :=
  match p.components.getLast? with
  | some (.name t) => some t
  | _ => none

/-- The path without its last component; nothing for the root and for the empty path. -/
def parent? (p : Path) : Option Path :=
  match dropIdle p.segments with
  | [] => if p.lead = some .here then some ⟨[]⟩ else none
  | ss => some (p.withSegments (dropIdle ss.dropLast))

/-- Another path read from this one on; an absolute one replaces it. -/
def join (p q : Path) : Path :=
  if q.isAbsolute then q
  else if p.text.isEmpty || p.text.getLast? = some '/' then ⟨p.text ++ q.text⟩
  else ⟨p.text ++ '/' :: q.text⟩

/-- A file name up to its last dot, unless the name begins there. -/
def stemOf (name : Text) : Text :=
  match name.cutLast? '.' with
  | none => name
  | some ([], _) => name
  | some (stem, _) => stem

def stem? (p : Path) : Option Text := p.fileName?.map stemOf

def withExtension (p : Path) (ext : Text) : Path :=
  match p.fileName? with
  | none => p
  | some name =>
    p.withSegments ((dropIdle p.segments).dropLast ++ [stemOf name ++ '.' :: ext])

/-- Order and equality of paths go by components. -/
def compare (p q : Path) : Ordering := Component.compareAll p.components q.components

def below? (p dir : Path) : Option (List Component) := after dir.components p.components
where
  after : List Component → List Component → Option (List Component)
    | [], cs => some cs
    | _ :: _, [] => none
    | d :: ds, c :: cs => if d = c then after ds cs else none

def isWithin (p dir : Path) : Bool := (p.below? dir).isSome

def ofComponents (cs : List Component) : Path :=
  cs.foldl (fun p c => p.join ⟨c.text⟩) ⟨[]⟩

/-- The way from one list of components to another, once they have been followed up to the first
difference; `started` tells whether a step has been taken. -/
def stepsTo (started : Bool) : (target base : List Component) → Option (List Component)
  | [], [] => some []
  | target, [] => some target
  | [], _ :: bs => (stepsTo true [] bs).map (.up :: ·)
  | t :: ts, b :: bs =>
    if !started && t = b then stepsTo false ts bs
    else if b = .here then (stepsTo true ts bs).map (t :: ·)
    else if b = .up then none
    else some (.up :: bs.map (fun _ => .up) ++ t :: ts)

def relativeTo? (p base : Path) : Option Path :=
  if p.isAbsolute = base.isAbsolute then
    (stepsTo false p.components base.components).map ofComponents
  else if p.isAbsolute then some p
  else none

/-- A directory and up to `depth - 1` directories above it. -/
def ancestors (depth : Nat) (p : Path) : List Path :=
  match depth with
  | 0 => []
  | n + 1 => p :: (match p.parent? with | some q => ancestors n q | none => [])

end Path

end CleanCopy
