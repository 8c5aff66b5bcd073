import CleanCopy.Toml.Value

namespace CleanCopy.Toml

def isBareKeyChar (c : Char) : Bool := c.isAlphanum || c == '_' || c == '-'

def simpleKey? (t : Text) : Option (Text × Text) :=
  match t with
  | '\"' :: rest => basic? rest
  | '\'' :: rest => literal? rest
  | t =>
    match t.takeWhile isBareKeyChar with
    | [] => none
    | key => some (key, t.dropWhile isBareKeyChar)

def dottedKey? : (fuel : Nat) → Text → Option ((List Text × Text) × Text)
  | 0, _ => none
  | fuel + 1, t => do
    let (k, rest) ← simpleKey? t
    match skipSpaces rest with
    | '.' :: more =>
      let ((path, last), rest) ← dottedKey? fuel (skipSpaces more)
      return ((k :: path, last), rest)
    | _ => return (([], k), rest)

def key? (t : Text) : Option ((List Text × Text) × Text) := dottedKey? (t.length + 1) t

def afterComment? (t : Text) : Option Text :=
  match t with
  | '#' :: rest =>
    match rest.dropWhile isPrintable with
    | [] => some []
    | rest => if (afterLineEnd? rest).isSome then some rest else none
  | t => some t

/-- What follows spaces, comments and line ends. -/
def skipFiller? : (fuel : Nat) → Text → Option Text
  | 0, _ => none
  | fuel + 1, t => do
    let rest ← afterComment? (skipSpaces t)
    match afterLineEnd? rest with
    | some rest => skipFiller? fuel rest
    | none => return rest

def filler? (t : Text) : Option Text := skipFiller? (t.length + 1) t

/-- Arrays and inline tables nest no deeper than this. -/
def maxDepth : Nat := 80

mutual

/-- A value, inside of `maxDepth - depth` others. Two calls in a row pass at least one character. -/
def value? (depth : Nat) : (fuel : Nat) → Text → Option (Value × Text)
  | 0, _ => none
  | fuel + 1, t =>
    match t with
    | '\"' :: _ | '\'' :: _ => (string? t).map fun (s, rest) => (.string s, rest)
    | '[' :: rest => do
      if depth = 0 then none
      let (items, rest) ← items? (depth - 1) fuel (← filler? rest)
      return (.array false items, rest)
    | '\x7b' :: rest => do
      if depth = 0 then none
      entries? (depth - 1) fuel (.table .inline []) (← filler? rest)
    | t => (scalar? t).map fun (s, rest) => (.scalar s, rest)

/-- The items of an array up to its closing bracket; the last may be followed by a comma. -/
def items? (depth : Nat) : (fuel : Nat) → Text → Option (List Value × Text)
  | 0, _ => none
  | fuel + 1, t =>
    match t with
    | ']' :: rest => some ([], rest)
    | t => do
      let (v, rest) ← value? depth fuel t
      match ← filler? rest with
      | ',' :: rest =>
        let (vs, rest) ← items? depth fuel (← filler? rest)
        return (v :: vs, rest)
      | ']' :: rest => return ([v], rest)
      | _ => none

/-- The entries of an inline table up to its closing brace; the last may be followed by a comma. -/
def entries? (depth : Nat) : (fuel : Nat) → Value → Text → Option (Value × Text)
  | 0, _, _ => none
  | fuel + 1, table, t =>
    match t with
    | '\x7d' :: rest => some (table, rest)
    | t => do
      let ((path, last), rest) ← key? t
      let rest ← Text.after? ['='] (skipSpaces rest)
      let (v, rest) ← value? depth fuel (skipSpaces rest)
      let table ← Value.insert path last v table
      match ← filler? rest with
      | ',' :: rest => entries? depth fuel table (← filler? rest)
      | '\x7d' :: rest => return (table, rest)
      | _ => none

end

/-- A document as far as it is read: the root and the path of the table that takes keys. -/
structure Reading where
  root : Value
  path : List Text

def lineEnd? (t : Text) : Option Text := do
  match ← afterComment? (skipSpaces t) with
  | [] => some []
  | rest => afterLineEnd? rest

def header? (r : Reading) (t : Text) : Option (Reading × Text) :=
  match t with
  | '[' :: t => do
    let ((path, last), rest) ← key? (skipSpaces t)
    let rest ← lineEnd? (← Text.after? [']', ']'] (skipSpaces rest))
    return (⟨← r.root.pushTable path last, path ++ [last]⟩, rest)
  | t => do
    let ((path, last), rest) ← key? (skipSpaces t)
    let rest ← lineEnd? (← Text.after? [']'] (skipSpaces rest))
    return (⟨← r.root.openTable path last, path ++ [last]⟩, rest)

def keyValue? (r : Reading) (t : Text) : Option (Reading × Text) := do
  let ((path, last), rest) ← key? t
  let rest ← Text.after? ['='] (skipSpaces rest)
  let (v, rest) ← value? maxDepth (2 * rest.length + 2) (skipSpaces rest)
  let rest ← lineEnd? rest
  let root ← Value.alter false (fun kind es => Value.insert path last v (.table kind es)) r.path r.root
  return (⟨root, r.path⟩, rest)

def lines? : (fuel : Nat) → Reading → Text → Option Value
  | 0, _, _ => none
  | fuel + 1, r, t => do
    match ← filler? t with
    | [] => return r.root
    | '[' :: rest =>
      let (r, rest) ← header? r rest
      lines? fuel r rest
    | rest =>
      let (r, rest) ← keyValue? r rest
      lines? fuel r rest

/-- Reads a document, of which a byte-order mark at the start is no part; nothing when it is malformed. -/
def parse? (t : Text) : Option Value :=
  let t := (Text.after? ['\uFEFF'] t).getD t
  lines? (t.length + 1) ⟨.table .stated [], []⟩ t

end CleanCopy.Toml
