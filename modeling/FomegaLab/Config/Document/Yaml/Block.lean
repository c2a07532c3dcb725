-- Block scalars of YAML texts: indented lines that are taken as they are, or folded.
import FomegaLab.Config.Document.Yaml.Cursor
import FomegaLab.Config.ReadFault

namespace FomegaLab.Yaml

/-- What becomes of the line breaks at the end of a block scalar. -/
inductive Chomping where
  | strip
  | clip
  | keep
deriving DecidableEq

/-- The heading of a block scalar: its chomping, and the depth of its lines if it is
given. -/
structure BlockHead where
  chomping : Chomping
  depth : Option Nat

/-- The sign for a chomping, and the place behind it. -/
def chomping (p : Cursor) : Option Chomping × Cursor :=
  match p.rest with
  | '+' :: _ => (some .keep, p.skip 1)
  | '-' :: _ => (some .strip, p.skip 1)
  | _ => (none, p)

/-- The digit for a depth, and the place behind it. -/
def blockDepth (p : Cursor) : Option Nat × Cursor :=
  match p.rest with
  | c :: _ => if c.isDigit then (some (c.toNat - '0'.toNat), p.skip 1) else (none, p)
  | [] => (none, p)

/-- The heading of a block scalar and the place of its first line. The signs come in
any order, and a comment may follow behind a blank. -/
def blockHead (p : Cursor) : Read (BlockHead × Cursor) :=
  let (early, p) := chomping p
  let (depth, p) := blockDepth p
  let (late, p) := if early.isSome then (early, p) else chomping p
  let isOver := atBreak p.rest || p.rest.head? == some ' '
  let p := (p.skipWhile (· == ' ')).skipComment
  if depth = some 0 || !isOver then Read.malformed
  else
    match p.rest, p.lineBreak? with
    | [], _ => .ok (⟨late.getD .clip, depth⟩, p)
    | _, some (_, p) => .ok (⟨late.getD .clip, depth⟩, p)
    | _, none => Read.malformed

/-- The empty lines from here on, the greatest depth of their blanks, and the place of
the first text. -/
def leadingLines : (fuel : Nat) → (depth : Nat) → Cursor → List Char × Nat × Cursor
  | 0, depth, p => ([], depth, p)
  | fuel + 1, depth, p =>
    let p := p.skipWhile (· == ' ')
    let depth := max depth p.column
    match p.lineBreak? with
    | none => ([], depth, p)
    | some (c, p) =>
      let (breaks, r) := leadingLines fuel depth p
      (c :: breaks, r)

/-- Passes over blanks up to a column. -/
def indentTo (column : Nat) (p : Cursor) : Cursor :=
  p.skip ((p.rest.take (column - p.column)).takeWhile (· == ' ')).length

/-- The empty lines of a block of a depth, and the place of the next text. -/
def blockBreaks (depth : Nat) : (fuel : Nat) → Cursor → List Char × Cursor
  | 0, p => ([], p)
  | fuel + 1, p =>
    let p := indentTo depth p
    match p.lineBreak? with
    | none => ([], p)
    | some (c, p) =>
      let (breaks, p) := blockBreaks depth fuel p
      (c :: breaks, p)

/-- The break between two lines. Two lines that both start with a text may be folded. -/
def between (isFolded : Bool) (first : Option Char) (breaks next : List Char) : List Char :=
  let startsText := next.head?.all fun c => !isSpace c
  match first with
  | none => []
  | some c =>
    if isFolded && c == '\n' && startsText then if breaks.isEmpty then [' '] else [] else [c]

/-- The lines of a block from one of its lines on. The breaks in front of that line are
given. -/
def blockLines (isFolded : Bool) (mode : Chomping) (depth : Nat) :
    (fuel : Nat) → (breaks : List Char) → Cursor → List Char × Cursor
  | 0, _, p => ([], p)
  | fuel + 1, before, p =>
    let startsText := p.rest.head?.all fun c => !isSpace c
    let (line, p) := p.span fun c => !isBreak c
    let (ending, p) :=
      match p.lineBreak? with
      | some (c, p) => (some c, p)
      | none => (none, p)
    let (breaks, p) := blockBreaks depth (p.rest.length + 1) p
    if p.column == depth && !p.rest.isEmpty then
      let (more, p') := blockLines isFolded mode depth fuel breaks p
      (before ++ line ++ between (isFolded && startsText) ending breaks p.rest ++ more, p')
    else
      let tail :=
        match mode with
        | .strip => []
        | .clip => ending.toList
        | .keep => ending.toList ++ breaks
      (before ++ line ++ tail, p)

/-- The text of a block scalar that starts here inside of a block with an indentation,
and the place behind it. -/
def block (isFolded : Bool) (indent : Int) (p : Cursor) : Read (String × Cursor) := do
  let (head, p) ← blockHead (p.skip 1)
  let least := max 1 (indent + 1).toNat
  let fuel := p.rest.length + 1
  let (depth, breaks, p) :=
    match head.depth with
    | some n =>
      let depth := least + n - 1
      let (breaks, p) := blockBreaks depth fuel p
      (depth, breaks, p)
    | none =>
      let (breaks, depth, p) := leadingLines fuel 0 p
      (max least depth, breaks, p)
  if p.column == depth && !p.rest.isEmpty then
    let (s, p) := blockLines isFolded head.chomping depth fuel breaks p
    return (String.ofList s, p)
  else
    return (String.ofList (if head.chomping == .keep then breaks else []), p)

end FomegaLab.Yaml
