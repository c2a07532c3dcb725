-- Tables of TOML documents: what headers and keys with points may add to them.
import FomegaLab.Config.Data

namespace FomegaLab.Toml

/-- How a table came to be: on the way to another table, by a header of its own, or by
a key with points. Such a key stands behind some number of headers. -/
inductive Origin where
  | implied
  | header
  | dotted (headers : Nat)
deriving DecidableEq

/-- What stands under a key. Nothing can be added to a value, also if it is an inline
table. The tables of an array are listed from the last one on. -/
inductive Entry where
  | value (d : Data)
  | table (origin : Origin) (entries : List (String × Entry))
  | tables (items : List (List (String × Entry)))

abbrev Table := List (String × Entry)

namespace Table

mutual
def entryData : Entry → Data
  | .value d => d
  | .table _ entries => .map (entriesData entries)
  | .tables items => .list (itemsData items).reverse

def entriesData : List (String × Entry) → List (Data × Data)
  | [] => []
  | (k, e) :: es => (.text k, entryData e) :: entriesData es

def itemsData : List (List (String × Entry)) → List Data
  | [] => []
  | es :: items => .map (entriesData es) :: itemsData items
end

/-- A table as a mapping. -/
def toData (t : Table) : Mapping := entriesData t

/-- A table with something else under a key that it has. -/
def replace (t : Table) (key : String) (e : Entry) : Table :=
  t.map fun entry => if entry.1 = key then (key, e) else entry

/-- Changes the table at a path. Tables on the way are made if they are missing, and
an array stands for its last table. -/
def modify? (f : Table → Option Table) : (path : List String) → Table → Option Table
  | [], t => f t
  | k :: ks, t =>
    match t.lookup k with
    | none => (modify? f ks []).map fun inner => t ++ [(k, .table .implied inner)]
    | some (.table origin inner) =>
      (modify? f ks inner).map fun inner => t.replace k (.table origin inner)
    | some (.tables (last :: items)) =>
      (modify? f ks last).map fun last => t.replace k (.tables (last :: items))
    | some _ => none

/-- Sets a new key behind some number of headers. The tables on its path have no header
of their own, and no key behind another header made them. -/
def set? (headers : Nat) (d : Data) : (path : List String) → Table → Option Table
  | [], _ => none
  | [k], t => if (t.lookup k).isSome then none else some (t ++ [(k, .value d)])
  | k :: ks, t =>
    match t.lookup k with
    | none => (set? headers d ks []).map fun inner => t ++ [(k, .table (.dotted headers) inner)]
    | some (.table origin inner) =>
      if origin = .implied ∨ origin = .dotted headers then
        (set? headers d ks inner).map fun inner =>
          t.replace k (.table (.dotted headers) inner)
      else none
    | some _ => none

/-- Opens the table of a header. A table has one header, and none if keys made it. -/
def open? (key : String) (t : Table) : Option Table :=
  match t.lookup key with
  | none => some (t ++ [(key, .table .header [])])
  | some (.table .implied inner) => some (t.replace key (.table .header inner))
  | some _ => none

/-- Adds an empty table to an array of tables. -/
def push? (key : String) (t : Table) : Option Table :=
  match t.lookup key with
  | none => some (t ++ [(key, .tables [[]])])
  | some (.tables items) => some (t.replace key (.tables ([] :: items)))
  | some _ => none

end Table

end FomegaLab.Toml
