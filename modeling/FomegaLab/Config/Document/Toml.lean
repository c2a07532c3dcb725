-- Reading TOML documents.
import FomegaLab.Config.Document.Toml.Value

namespace FomegaLab.Toml

/-- A document as far as it is read: its tables, the path of the table that settings go
to, and the number of headers so far. -/
structure Draft where
  root : Table
  path : List String
  headers : Nat

namespace Draft

def empty : Draft := ⟨[], [], 0⟩

/-- Adds a setting to the table of the last header. -/
def set? (draft : Draft) (key : List String) (d : Data) : Option Draft := do
  return { draft with root := ← draft.root.modify? (Table.set? draft.headers d key) draft.path }

/-- Makes the table at a path the one that settings go to. -/
def enter? (draft : Draft) (f : String → Table → Option Table) (key : List String) :
    Option Draft := do
  let last ← key.getLast?
  return ⟨← draft.root.modify? (f last) key.dropLast, key, draft.headers + 1⟩

end Draft

/-- Adds what a line says that is not empty. -/
def statement (draft : Draft) (cs : List Char) : Read (Draft × List Char) := do
  match cs with
  | '[' :: '[' :: rest =>
    let rest := skipSpace rest
    let (key, rest) ← key? (rest.length + 1) rest
    match rest with
    | ']' :: ']' :: rest => return (← draft.enter? Table.push? key, rest)
    | _ => Read.malformed
  | '[' :: rest =>
    let rest := skipSpace rest
    let (key, rest) ← key? (rest.length + 1) rest
    match rest with
    | ']' :: rest => return (← draft.enter? Table.open? key, rest)
    | _ => Read.malformed
  | cs =>
    let (key, rest) ← key? (cs.length + 1) cs
    match rest with
    | '=' :: rest =>
      let (d, rest) ← value (2 * rest.length + 2) (skipSpace rest)
      return (← draft.set? key d, rest)
    | _ => Read.malformed

/-- Adds what the lines say. -/
def statements : (fuel : Nat) → Draft → List Char → Read Draft
  | 0, _, _ => Read.malformed
  | fuel + 1, draft, cs => do
    let (draft, rest) ←
      match skipSpace cs with
      | [] => pure (draft, [])
      | '\n' :: rest => pure (draft, '\n' :: rest)
      | '#' :: rest => pure (draft, '#' :: rest)
      | rest => statement draft rest
    match ← skipComment? (skipSpace rest) with
    | [] => return draft
    | '\n' :: rest => statements fuel draft rest
    | _ => Read.malformed

/-- The mapping of a whole document. -/
def document (cs : List Char) : Read Data := do
  let draft ← statements (cs.length + 1) .empty cs
  return .map draft.root.toData

end FomegaLab.Toml
