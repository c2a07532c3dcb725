-- Reading YAML documents: the value that a tree of nodes stands for.
import FomegaLab.Config.Document.Yaml.Node

namespace FomegaLab.Yaml

/-! ## Faults by depth -/

/-- What comes of reading a node, where a failure tells how deep it was met. The outer
collections are read before the inner ones. -/
abbrev Leveled (α : Type) := Except (Nat × ReadFault) α

namespace Leveled

def atDepth {α : Type} (depth : Nat) : Read α → Leveled α
  | .ok a => .ok a
  | .error f => .error (depth, f)

/-- Two results. Of two failures the one that is less deep counts, or the first one. -/
def both {α β : Type} : Leveled α → Leveled β → Leveled (α × β)
  | .ok a, .ok b => .ok (a, b)
  | .ok _, .error g => .error g
  | .error f, .ok _ => .error f
  | .error f, .error g => .error (if g.1 < f.1 then g else f)

/-- All results. -/
def all {α : Type} : List (Leveled α) → Leveled (List α)
  | [] => .ok []
  | r :: rs => (both r (all rs)).map fun p => p.1 :: p.2

end Leveled

/-! ## Mappings -/

/-- Keys that are the same. What is not a number is the same as itself. -/
def sameKey (a b : Data) : Bool :=
  match a, b with
  | .float .nan, .float .nan => true
  | a, b => a.sameKey b

def toMapping (entries : List (Data × Data)) : Data := .map (Mapping.ofEntries sameKey entries)

namespace Node

def isMergeSign : Node → Bool
  | .plain s => s == mergeSign
  | _ => false

/-- The value of a node as a key. A collection is none. -/
def keyValue : Node → Read Data
  | .plain s => if s = valueSign then .ok (.text s) else meaning s
  | .quoted s => .ok (.text s)
  | _ => Read.malformed

/-- The entries of a mapping: those that are merged into it, and its own. -/
structure Fields where
  merged : List (Leveled (Data × Data))
  own : List (Leveled (Data × Data))

/-- What is merged into a mapping comes first, so that its own entries win. -/
def Fields.toList (f : Fields) : List (Leveled (Data × Data)) := f.merged ++ f.own

mutual
/-- The value of a node at a depth. -/
def value (depth : Nat) : Node → Leveled Data
  | .plain s => .atDepth depth (meaning s)
  | .quoted s => .ok (.text s)
  | .list items => (Leveled.all (values (depth + 1) items)).map .list
  | .map entries =>
    match fields? (depth + 1) entries with
    | some f => (Leveled.all f.toList).map toMapping
    | none => .error (depth + 1, .malformed)

def values (depth : Nat) : List Node → List (Leveled Data)
  | [] => []
  | n :: ns => value depth n :: values depth ns

/-- The entries of a mapping, if what it merges is one mapping or a list of them. -/
def fields? (depth : Nat) : List (Node × Node) → Option Fields
  | [] => some ⟨[], []⟩
  | (k, v) :: es => do
    let f ← fields? depth es
    if k.isMergeSign then return { f with merged := (← merged? depth v) ++ f.merged }
    else return { f with own := .both (.atDepth depth k.keyValue) (value depth v) :: f.own }

/-- The entries that a node adds to a mapping that merges it. -/
def merged? (depth : Nat) : Node → Option (List (Leveled (Data × Data)))
  | .map entries => (fields? depth entries).map Fields.toList
  | .list items => mergedItems? depth items
  | _ => none

/-- The entries of several mappings. The first mapping wins, so that it comes last. -/
def mergedItems? (depth : Nat) : List Node → Option (List (Leveled (Data × Data)))
  | [] => some []
  | .map entries :: ns => do
    let f ← fields? depth entries
    return (← mergedItems? depth ns) ++ f.toList
  | _ :: _ => none
end

end Node

/-- The value of a whole document. An empty one is nothing. -/
def document (cs : List Char) : Read Data := do
  match ← Node.ofTokens (← tokens cs) with
  | none => return .null
  | some n =>
    match n.value 0 with
    | .ok d => return d
    | .error (_, f) => throw f

end FomegaLab.Yaml
