import CleanCopy.Toml.Scalar

namespace CleanCopy.Toml

/-- How a table came to be: between braces, by a dotted key, by a longer header, or by its own. -/
inductive TableKind where
  | inline
  | dotted
  | implied
  | stated
  deriving DecidableEq, Repr

/-- A value; `growing` marks an array that headers in double brackets extend. -/
inductive Value where
  | string (t : Text)
  | scalar (s : Scalar)
  | array (growing : Bool) (items : List Value)
  | table (kind : TableKind) (entries : List (Text × Value))
  deriving Repr

abbrev Entries := List (Text × Value)

namespace Entries

def get? (es : Entries) (k : Text) : Option Value := es.lookup k

def set (k : Text) (v : Value) : Entries → Entries
  | [] => [(k, v)]
  | (k', v') :: es => if k' = k then (k, v) :: es else (k', v') :: set k v es

end Entries

namespace Value

/-- Changes the table that a path leads to. Tables on the way come into being as needed. What has
been written between braces is complete, and what has a header of its own takes no dotted keys. -/
def alter (isDotted : Bool) (f : TableKind → Entries → Option Value) :
    List Text → Value → Option Value
  | [], .table kind es => f kind es
  | k :: ks, .table kind es =>
    let below (v : Value) := (alter isDotted f ks v).map fun v => Value.table kind (Entries.set k v es)
    match Entries.get? es k with
    | none => below (.table (if isDotted then .dotted else .implied) [])
    | some (.table .inline _) => none
    | some (.table kind' es') =>
      if isDotted && kind' = .stated then none else below (.table kind' es')
    | some (.array true items) =>
      match items.getLast? with
      | none => none
      | some last =>
        (alter isDotted f ks last).map fun v =>
          .table kind (Entries.set k (.array true (items.dropLast ++ [v])) es)
    | some _ => none
  | _, _ => none

/-- Adds a value under a dotted key. A key is given once, and a table that dotted keys made is
extended by dotted keys only. -/
def insert (path : List Text) (k : Text) (v : Value) (root : Value) : Option Value :=
  alter true (fun kind es =>
    if (kind = .dotted) = (path = []) then none
    else if (Entries.get? es k).isSome then none
    else some (.table kind (Entries.set k v es))) path root

def openTable (path : List Text) (k : Text) (root : Value) : Option Value :=
  alter false (fun kind es =>
    match Entries.get? es k with
    | none => some (.table kind (Entries.set k (.table .stated []) es))
    | some (.table .implied inner) => some (.table kind (Entries.set k (.table .stated inner) es))
    | some _ => none) path root

def pushTable (path : List Text) (k : Text) (root : Value) : Option Value :=
  alter false (fun kind es =>
    match Entries.get? es k with
    | none => some (.table kind (Entries.set k (.array true [.table .stated []]) es))
    | some (.array true items) =>
      some (.table kind (Entries.set k (.array true (items ++ [.table .stated []])) es))
    | some _ => none) path root

end Value

end CleanCopy.Toml
