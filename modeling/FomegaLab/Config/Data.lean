-- Configuration values before they are given a meaning: what a document holds.
import FomegaLab.Config.Floating
import FomegaLab.Text.Quoted
import FomegaLab.Word

namespace FomegaLab

/-- A value of a document. -/
inductive Data where
  | null
  | bool (b : Bool)
  | int (n : Int)
  | float (x : Floating)
  | text (s : String)
  | list (items : List Data)
  | map (entries : List (Data × Data))

/-- A mapping lists its entries in the order in which their keys first came. No
two keys are the same. -/
abbrev Mapping := List (Data × Data)

namespace Data

def typeName : Data → String
  | null => "NoneType"
  | bool _ => "bool"
  | int _ => "int"
  | float _ => "float"
  | text _ => "str"
  | list _ => "list"
  | map _ => "dict"

/-! ## Text -/

mutual
/-- A value in full detail. -/
def shown : Data → String
  | null => "None"
  | bool true => "True"
  | bool false => "False"
  | int n => toString n
  | float x => x.text
  | text s => Text.quoted s
  | list items => "[" ++ ", ".intercalate (shownItems items) ++ "]"
  | map entries => "\x7b" ++ ", ".intercalate (shownEntries entries) ++ "\x7d"

def shownItems : List Data → List String
  | [] => []
  | d :: ds => d.shown :: shownItems ds

def shownEntries : List (Data × Data) → List String
  | [] => []
  | (k, d) :: es => (k.shown ++ ": " ++ d.shown) :: shownEntries es
end

mutual
/-- Whether the text of a value would have an integer in it that is too long. -/
def hasLong : Data → Bool
  | int n => isLong n
  | list items => anyLong items
  | map entries => anyLongEntry entries
  | _ => false

def anyLong : List Data → Bool
  | [] => false
  | d :: ds => d.hasLong || anyLong ds

def anyLongEntry : List (Data × Data) → Bool
  | [] => false
  | (k, d) :: es => k.hasLong || d.hasLong || anyLongEntry es
end

/-! ## Keys -/

/-- Numbers are the same key if they are equal as numbers, truth values counting
as zero and one. -/
def number? : Data → Option Int
  | bool b => some (if b then 1 else 0)
  | int n => some n
  | float x => x.toInt?
  | _ => none

/-- Truth values count as numbers. -/
def isNumber : Data → Bool
  | bool _ => true
  | int _ => true
  | float _ => true
  | _ => false

/-- Whether two scalars are the same key of a mapping. What is not a number differs
even from itself. -/
def sameKey (a b : Data) : Bool :=
  match a, b with
  | null, null => true
  | text s, text t => s == t
  | float x, float y => (x == y && x != .nan) || (a.number?.isSome && a.number? == b.number?)
  | _, _ => a.number?.isSome && a.number? == b.number?

/-- A number as a quotient. The infinities divide by zero. -/
def quotient? : Data → Option (Int × Nat)
  | bool b => some (if b then 1 else 0, 1)
  | int n => some (n, 1)
  | float (.infinite negative) => some (Numeral.signed negative 1, 0)
  | float (.finite negative x) =>
    let (n, d) := x.toQuotient
    some (Numeral.signed negative n, d)
  | _ => none

/-- Whether one number is less than another one. -/
def isBelow (a b : Data) : Bool :=
  match a.quotient?, b.quotient? with
  | some (m, c), some (n, d) => m * d < n * c
  | _, _ => false

/-- A value that counts as nothing: null, false, zero, and what is empty. -/
def isEmpty : Data → Bool
  | null => true
  | bool b => !b
  | int n => n == 0
  | float x => x.toInt? == some 0
  | text s => s.isEmpty
  | list items => items.isEmpty
  | map entries => entries.isEmpty

end Data

namespace Mapping

/-- Sets a key. A key that is there keeps its place. -/
def insert (same : Data → Data → Bool) : Mapping → Data → Data → Mapping
  | [], k, d => [(k, d)]
  | (k', d') :: m, k, d => if same k' k then (k', d) :: m else (k', d') :: insert same m k d

/-- The mapping that setting the entries one after the other makes. -/
def ofEntries (same : Data → Data → Bool) (entries : List (Data × Data)) : Mapping :=
  entries.foldl (fun m e => insert same m e.1 e.2) []

/-- What a mapping holds under a text. -/
def get? : Mapping → String → Option Data
  | [], _ => none
  | (.text s, d) :: m, key => if s = key then some d else get? m key
  | _ :: m, key => get? m key

/-- A mapping without a text key. -/
def erase (m : Mapping) (key : String) : Mapping :=
  m.filter fun e =>
    match e.1 with
    | .text s => s != key
    | _ => true

end Mapping

end FomegaLab
