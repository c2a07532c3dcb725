-- The tree that the tokens of a YAML text make.
import FomegaLab.Config.Document.Yaml.Token

namespace FomegaLab.Yaml

/-- A scalar, or a collection of nodes. Only a scalar without quotes may stand for
something else than its text. -/
inductive Node where
  | plain (text : String)
  | quoted (text : String)
  | list (items : List Node)
  | map (entries : List (Node × Node))

namespace Node

/-- What stands where nothing is written. -/
def empty : Node := .plain ""

/-! ## Reading tokens -/

/-- The tokens that are not read yet, and the nodes that have a name. A node that is not
whole yet has only its name. -/
structure Source where
  tokens : List Token
  names : List (String × Option Node)

/-- A step of reading a tree. -/
abbrev Reader (α : Type) := StateT Source Read α

namespace Reader

def fail {α : Type} : Reader α := throw .malformed

/-- The next token. At the end there is none. -/
def peek : Reader (Option Token) := do
  match (← get).tokens with
  | .fault f :: _ => throw f
  | t :: _ => return some t
  | [] => return none

/-- Passes over the next token. -/
def advance : Reader Unit := modify fun s => { s with tokens := s.tokens.drop 1 }

/-- Passes over the next token if it is a given one. -/
def accept (t : Token) : Reader Bool := do
  if (← peek) == some t then
    advance
    return true
  else return false

/-- Whether the next token is one of some. -/
def isNext (ts : List Token) : Reader Bool := do
  return (← peek).any ts.contains

/-- Passes over the comma in front of an item, which the first one does not have. -/
def acceptComma (isFirst : Bool) : Reader Bool := do
  if isFirst then return true else accept .comma

/-- The node that has a name. -/
def named (name : String) : Reader Node := do
  match (← get).names.lookup name with
  | some (some n) => return n
  | _ => fail

/-- Sets a name aside. No two nodes have the same one. -/
def reserve (name : String) : Reader Unit := do
  let s ← get
  if (s.names.lookup name).isSome then fail
  else set { s with names := (name, none) :: s.names }

/-- Gives a node a name that is set aside. -/
def define (name : String) (n : Node) : Reader Unit :=
  modify fun s => { s with names := (name, some n) :: s.names }

end Reader

open Reader

/-- Where a node stands: inside of a flow collection, inside of a block, or behind a key
of a block. In the last place a list needs no block of its own. -/
inductive Place where
  | flow
  | block
  | entry
deriving DecidableEq

mutual
/-- The node that starts with the next token. -/
def read : (fuel : Nat) → Place → Reader Node
  | 0, _ => fail
  | fuel + 1, place => do
    match ← peek with
    | some (.alias name) =>
      advance
      named name
    | some (.anchor name) =>
      advance
      let _ ← peek
      reserve name
      let n ← content? fuel place
      let n := n.getD empty
      define name n
      return n
    | _ =>
      match ← content? fuel place with
      | some n => return n
      | none => fail

/-- A scalar or a collection, if one starts with the next token. -/
def content? : (fuel : Nat) → Place → Reader (Option Node)
  | 0, _ => fail
  | fuel + 1, place => do
    match ← peek with
    | some (.plain s) =>
      advance
      return some (.plain s)
    | some (.quoted s) =>
      advance
      return some (.quoted s)
    | some .openList =>
      advance
      return some (.list (← flowItems fuel true))
    | some .openMap =>
      advance
      return some (.map (← flowEntries fuel true))
    | some .blockList =>
      if place = .flow then return none
      advance
      return some (.list (← blockItems fuel))
    | some .blockMap =>
      if place = .flow then return none
      advance
      return some (.map (← blockEntries fuel))
    | some .dash =>
      if place = .entry then return some (.list (← dashItems fuel)) else return none
    | _ => return none

/-- A node, or nothing if one of some tokens follows. -/
def readUnless : (fuel : Nat) → Place → List Token → Reader Node
  | 0, _, _ => fail
  | fuel + 1, place, ends => do
    if ← isNext ends then return empty else read fuel place

/-- The value of an entry behind its key. It may be left out with its colon. -/
def entryValue : (fuel : Nat) → Place → List Token → Reader Node
  | 0, _, _ => fail
  | fuel + 1, place, ends => do
    if ← accept .colon then readUnless fuel place ends else return empty

/-- The items of a block list, up to its end. -/
def blockItems : (fuel : Nat) → Reader (List Node)
  | 0 => fail
  | fuel + 1 => do
    if ← accept .dash then
      let n ← readUnless fuel .block [.dash, .blockEnd]
      return n :: (← blockItems fuel)
    else if ← accept .blockEnd then return []
    else fail

/-- The items of a list that has no block of its own. -/
def dashItems : (fuel : Nat) → Reader (List Node)
  | 0 => fail
  | fuel + 1 => do
    if ← accept .dash then
      let n ← readUnless fuel .block [.dash, .key, .colon, .blockEnd]
      return n :: (← dashItems fuel)
    else return []

/-- The entries of a block mapping, up to its end. -/
def blockEntries : (fuel : Nat) → Reader (List (Node × Node))
  | 0 => fail
  | fuel + 1 => do
    if ← accept .key then
      let k ← readUnless fuel .entry [.key, .colon, .blockEnd]
      let v ← entryValue fuel .entry [.key, .colon, .blockEnd]
      return (k, v) :: (← blockEntries fuel)
    else if ← accept .blockEnd then return []
    else fail

/-- The items of a list in brackets, up to the closing one. An entry with a key is a
mapping of its own. -/
def flowItems : (fuel : Nat) → (isFirst : Bool) → Reader (List Node)
  | 0, _ => fail
  | fuel + 1, isFirst => do
    if ← accept .closeList then return []
    if !(← acceptComma isFirst) then fail
    else if ← accept .key then
      let k ← readUnless fuel .flow [.colon, .comma, .closeList]
      let v ← entryValue fuel .flow [.comma, .closeList]
      return .map [(k, v)] :: (← flowItems fuel false)
    else if ← accept .closeList then return []
    else
      let n ← read fuel .flow
      return n :: (← flowItems fuel false)

/-- The entries of a mapping in braces, up to the closing one. -/
def flowEntries : (fuel : Nat) → (isFirst : Bool) → Reader (List (Node × Node))
  | 0, _ => fail
  | fuel + 1, isFirst => do
    if ← accept .closeMap then return []
    if !(← acceptComma isFirst) then fail
    else if ← accept .key then
      let k ← readUnless fuel .flow [.colon, .comma, .closeMap]
      let v ← entryValue fuel .flow [.comma, .closeMap]
      return (k, v) :: (← flowEntries fuel false)
    else if ← accept .closeMap then return []
    else
      let k ← read fuel .flow
      return (k, empty) :: (← flowEntries fuel false)
end

/-- Passes over the marks at the end of a document. -/
def skipEnds : (fuel : Nat) → Reader Unit
  | 0 => fail
  | fuel + 1 => do
    if ← accept .documentEnd then skipEnds fuel

/-- The node of the only document, if there is one. -/
def document (fuel : Nat) : Reader (Option Node) := do
  if (← peek).isNone then return none
  else
    let marked ← accept .documentStart
    let isOver := (← peek).all [.documentStart, .documentEnd].contains
    let n ← if marked && isOver then pure empty else read fuel .block
    skipEnds fuel
    if (← peek).isSome then fail else return some n

/-- The tree of a token list. Of nothing there is none. -/
def ofTokens (ts : List Token) : Read (Option Node) := do
  let (n, _) ← (document (4 * ts.length + 4)).run ⟨ts, []⟩
  return n

end Node

end FomegaLab.Yaml
