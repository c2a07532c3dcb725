-- Tokens of YAML texts: scalars, the marks of collections, and where blocks begin and
-- end by their indentation.
import FomegaLab.Config.Document.Yaml.Block
import FomegaLab.Config.Document.Yaml.Plain
import FomegaLab.Config.Document.Yaml.Quoted

namespace FomegaLab.Yaml

inductive Token where
  | documentStart
  | documentEnd
  | blockList
  | blockMap
  | blockEnd
  | openList
  | closeList
  | openMap
  | closeMap
  | comma
  | dash
  | key
  | colon
  | alias (name : String)
  | anchor (name : String)
  | plain (text : String)
  | quoted (text : String)
  /-- The text cannot be divided beyond this. -/
  | fault (f : ReadFault)
deriving DecidableEq

/-- A token at which a key may have begun that only its colon will show. Such a key ends
on its own line. It is `required` where a block goes on and nothing but a key can. -/
structure KeyStart where
  token : Nat
  flow : Nat
  required : Bool
  index : Nat
  line : Nat
  column : Nat

/-- How far a text is divided. -/
structure Scan where
  place : Cursor
  tokens : Array Token
  /-- The tokens in front of which a key is known to begin, and whether a block mapping
  begins there too. -/
  keys : List (Nat × Bool)
  /-- At most one key for each depth of flow collections. -/
  starts : List KeyStart
  /-- How many flow collections are open. -/
  flow : Nat
  /-- The column of the innermost block, and the blocks around it. -/
  indent : Int
  indents : List Int
  /-- Whether a key may begin here without a mark of its own. -/
  allowsKey : Bool

namespace Scan

def start (cs : List Char) : Scan := ⟨.start cs, #[], [], [], 0, -1, [], true⟩

def push (s : Scan) (t : Token) : Scan := { s with tokens := s.tokens.push t }

/-- Moves some characters on and adds a token. -/
def take (s : Scan) (count : Nat) (t : Token) : Scan :=
  { s.push t with place := s.place.skip count }

/-! ## Keys -/

/-- How many characters a key without a mark may be away from its colon. -/
def keyReach : Nat := 1024

/-- Whether a key that began elsewhere can still end here. -/
def canEndKey (s : Scan) (k : KeyStart) : Bool :=
  k.line == s.place.line && s.place.index ≤ k.index + keyReach

/-- Gives up the keys that satisfy a condition. A required one cannot be given up. -/
def dropKeys (s : Scan) (f : KeyStart → Bool) : Read Scan :=
  if s.starts.any fun k => f k && k.required then Read.malformed
  else .ok { s with starts := s.starts.filter fun k => !f k }

/-- Gives up the keys that cannot end here. -/
def dropStale (s : Scan) : Read Scan := s.dropKeys fun k => !s.canEndKey k

/-- Gives up the key at the present depth. -/
def dropKey (s : Scan) : Read Scan := s.dropKeys (·.flow == s.flow)

/-- Notes that a key may begin with the next token. -/
def saveKey (s : Scan) : Read Scan := do
  if s.allowsKey then
    let s ← s.dropKey
    let p := s.place
    let required := s.flow == 0 && s.indent == p.column
    return { s with
      starts := ⟨s.tokens.size, s.flow, required, p.index, p.line, p.column⟩ :: s.starts }
  else return s

/-- The first token that may still get a key in front of it, or the next one. -/
def settled (s : Scan) : Nat := s.starts.foldl (fun n k => min n k.token) s.tokens.size

/-! ## Blocks -/

/-- Ends the blocks that begin to the right of a column. -/
def endBlocks (s : Scan) (column : Int) : List Int → Scan
  | [] => { s with indents := [] }
  | outer :: indents =>
    if s.flow == 0 && column < s.indent then
      endBlocks { s.push .blockEnd with indent := outer } column indents
    else { s with indents := outer :: indents }

/-- Ends the blocks that do not reach to a column. -/
def unwind (s : Scan) (column : Int) : Scan := s.endBlocks column s.indents

/-- Begins a block at a column, if it is to the right of the present one. -/
def beginBlock (s : Scan) (column : Nat) : Bool × Scan :=
  if s.indent < column then (true, { s with indent := column, indents := s.indent :: s.indents })
  else (false, s)

/-- Begins a block of a kind here, if it is to the right of the present one. A mark
for an item or an entry of a block stands only where a key could. -/
def blockHere (s : Scan) (t : Token) : Read Scan :=
  if s.flow ≠ 0 then .ok s
  else if !s.allowsKey then Read.malformed
  else
    let (begins, s) := s.beginBlock s.place.column
    .ok (if begins then s.push t else s)

/-! ## Single tokens -/

def separator (s : Scan) (t : Token) : Read Scan := do
  let s ← (s.unwind (-1)).dropKey
  return { s.take 3 t with allowsKey := false }

def openFlow (s : Scan) (t : Token) : Read Scan := do
  let s ← s.saveKey
  return { s.take 1 t with flow := s.flow + 1, allowsKey := true }

/-- Closes a flow collection. There has to be an open one. -/
def closeFlow (s : Scan) (t : Token) : Read Scan := do
  let s ← s.dropKey
  if s.flow = 0 then Read.malformed
  else return { s.take 1 t with flow := s.flow - 1, allowsKey := false }

def comma (s : Scan) : Read Scan := do
  let s ← s.dropKey
  return { s.take 1 .comma with allowsKey := true }

def dash (s : Scan) : Read Scan := do
  let s ← (← s.blockHere .blockList).dropKey
  return { s.take 1 .dash with allowsKey := true }

/-- A key with a mark of its own. -/
def markedKey (s : Scan) : Read Scan := do
  let s ← (← s.blockHere .blockMap).dropKey
  return { s.take 1 .key with allowsKey := s.flow == 0 }

/-- A colon shows that a key began, if one could. -/
def colon (s : Scan) : Read Scan := do
  match s.starts.find? (·.flow == s.flow) with
  | some k =>
    let s := { s with starts := s.starts.filter (·.flow != s.flow) }
    let (begins, s) := if s.flow == 0 then s.beginBlock k.column else (false, s)
    return { s.take 1 .colon with keys := (k.token, begins) :: s.keys, allowsKey := false }
  | none =>
    let s ← (← s.blockHere .blockMap).dropKey
    return { s.take 1 .colon with allowsKey := s.flow == 0 }

def isNameChar (c : Char) : Bool := c.isAlphanum || c == '-' || c == '_'

/-- A name after its sign. -/
def named (s : Scan) (make : String → Token) : Read Scan := do
  let s ← s.saveKey
  let (name, next) := (s.place.skip 1).span isNameChar
  let fits := atGap next.rest || (next.rest.take 1).any fun c =>
    ['?', ':', ',', ']', '\x7d', '%', '@', '\x60'].contains c
  if name.isEmpty || !fits then Read.malformed
  else return { s.push (make (String.ofList name)) with place := next, allowsKey := false }

def quotedScalar (s : Scan) (double : Bool) : Read Scan := do
  let s ← s.saveKey
  let (text, next) ← quoted double s.place
  return { s.push (.quoted text) with place := next, allowsKey := false }

def blockScalar (s : Scan) (isFolded : Bool) : Read Scan := do
  let s ← { s with allowsKey := true }.dropKey
  let (text, next) ← block isFolded s.indent s.place
  return { s.push (.quoted text) with place := next }

def plainScalar (s : Scan) : Read Scan := do
  let s ← s.saveKey
  let r := Yaml.plain (s.flow != 0) s.indent s.place
  return { s.push (.plain (String.ofList r.text)) with place := r.next, allowsKey := r.isBroken }

/-- Characters that mean something at the start of a token. -/
def isIndicator (c : Char) : Bool :=
  ['-', '?', ':', ',', '[', ']', '\x7b', '\x7d', '#', '&', '*', '!', '|', '>', '\'', '"', '%',
    '@', '\x60'].contains c

/-- The token that starts here. Tags and directives are not read. -/
def token (s : Scan) : Read Scan :=
  let p := s.place
  let isBlock := s.flow == 0
  let beforeGap := atGap (p.rest.drop 1)
  if p.column == 0 && p.isSeparator '-' then s.separator .documentStart
  else if p.column == 0 && p.isSeparator '.' then s.separator .documentEnd
  else
    match p.rest with
    | [] => .ok s
    | c :: _ =>
      match c with
      | '[' => s.openFlow .openList
      | '\x7b' => s.openFlow .openMap
      | ']' => s.closeFlow .closeList
      | '\x7d' => s.closeFlow .closeMap
      | ',' => s.comma
      | '-' => if beforeGap then s.dash else s.plainScalar
      | '?' => if !isBlock || beforeGap then s.markedKey else s.plainScalar
      | ':' => if !isBlock || beforeGap then s.colon else s.plainScalar
      | '*' => s.named .alias
      | '&' => s.named .anchor
      | '|' => if isBlock then s.blockScalar false else Read.malformed
      | '>' => if isBlock then s.blockScalar true else Read.malformed
      | '\'' => s.quotedScalar false
      | '"' => s.quotedScalar true
      | c => if isSpace c || isIndicator c then Read.malformed else s.plainScalar

/-! ## Texts -/

/-- Passes over blanks, comments and line breaks. A key may begin on a new line. -/
def skipGap : (fuel : Nat) → Scan → Scan
  | 0, s => s
  | fuel + 1, s =>
    let p := (s.place.skipWhile (· == ' ')).skipComment
    match p.lineBreak? with
    | none => { s with place := p }
    | some (_, p) => skipGap fuel { s with place := p, allowsKey := s.allowsKey || s.flow == 0 }

/-- Some tokens, the first of which has a number, with the keys that begin at them. -/
def withKeys (keys : List (Nat × Bool)) : (number : Nat) → List Token → List Token
  | _, [] => []
  | number, t :: ts =>
    let rest := t :: withKeys keys (number + 1) ts
    match keys.lookup number with
    | some true => .blockMap :: .key :: rest
    | some false => .key :: rest
    | none => rest

/-- The first tokens. -/
def result (s : Scan) (count : Nat) : List Token := withKeys s.keys 0 (s.tokens.toList.take count)

/-- Divides the rest of a text. A fault other than one of form is met as soon as the
tokens are asked for that depend on what it hides. -/
def run : (fuel : Nat) → Scan → Read (List Token)
  | 0, _ => Read.malformed
  | fuel + 1, s => do
    let s ← s.dropStale
    let settled := s.settled
    let s ← (s.skipGap (s.place.rest.length + 1)).dropStale
    let s := s.unwind s.place.column
    if s.place.rest.isEmpty then
      let s ← (s.unwind (-1)).dropKey
      return s.result s.tokens.size
    else
      match s.token with
      | .ok s => run fuel s
      | .error .malformed => Read.malformed
      | .error f => return s.result settled ++ [.fault f]

end Scan

/-- The tokens of a text. -/
def tokens (cs : List Char) : Read (List Token) :=
  if cs.all isPrintable then Scan.run (cs.length + 1) (.start cs) else Read.malformed

end FomegaLab.Yaml
