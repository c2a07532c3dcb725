-- The meaning of configuration values: search options and suite configurations,
-- with what is wrong with a value that has none.
import FomegaLab.Config.Data
import FomegaLab.Harness.Suite

namespace FomegaLab

/-- Why a configuration is refused. -/
inductive ConfigFault where
  | notText (setting : String) (found : Data)
  | unknownChoice (setting : String) (found : String) (choices : List String)
  | notInteger (setting : String) (found : Data)
  | unknownOptions (names : List String)
  /-- Unknown options that cannot be listed, since not all of them are texts. They
  would be listed in order, so two that have no order are met first. -/
  | unlistableOptions (keys : List Data)
  | depthsNotMapping (found : Data)
  | nameNotText (found : Data)
  | options (f : OptionsFault)

/-- Whether one of two keys comes before the other. -/
def Data.isComparable (a b : Data) : Bool :=
  match a, b with
  | .text _, .text _ => true
  | a, b => a.isNumber && b.isNumber

/-- The first neighbours that have no order. -/
def incomparable? : List Data → Option (Data × Data)
  | a :: b :: keys => if a.isComparable b then incomparable? (b :: keys) else some (a, b)
  | _ => none

/-- The lesser of two numbers. -/
def Data.least (a b : Data) : Data := if b.isBelow a then b else a

/-- Why keys that are not all texts cannot be listed. -/
def unlistableText (keys : List Data) : String :=
  match incomparable? keys, keys with
  | some (a, b), _ =>
    "'<' not supported between instances of '" ++ b.typeName ++ "' and '" ++ a.typeName ++ "'"
  | none, k :: keys =>
    "sequence item 0: expected str instance, " ++ (keys.foldl Data.least k).typeName ++ " found"
  | none, [] => ""

def ConfigFault.message : ConfigFault → String
  | .notText setting found => setting ++ " must be a string, got " ++ found.typeName
  | .unknownChoice setting found choices =>
    "Unknown " ++ setting ++ " " ++ Text.quoted found ++ ", expected one of: "
      ++ ", ".intercalate choices
  | .notInteger setting found =>
    unlessLong found.hasLong
      (setting ++ " must be an integer, got " ++ found.typeName ++ ": " ++ found.shown)
  | .unknownOptions names => "Unknown generation options: " ++ ", ".intercalate names
  | .unlistableOptions keys => unlistableText keys
  | .depthsNotMapping found => "depths must be a mapping, got " ++ found.typeName
  | .nameNotText found => "Property name must be a string, got " ++ found.typeName
  | .options f => f.message

/-! ## Choices -/

/-- The upper case of a character, as far as it is ASCII. A few letters and
ligatures outside of ASCII have ASCII capitals. Every other character stays, so
that it can be no part of a name. -/
def upperChar (c : Char) : List Char :=
  if c.isLower then [c.toUpper]
  else
    match c with
    | 'ſ' => ['S']
    | 'ı' => ['I']
    | 'ß' => ['S', 'S']
    | 'ﬀ' => ['F', 'F']
    | 'ﬁ' => ['F', 'I']
    | 'ﬂ' => ['F', 'L']
    | 'ﬃ' => ['F', 'F', 'I']
    | 'ﬄ' => ['F', 'F', 'L']
    | 'ﬅ' => ['S', 'T']
    | 'ﬆ' => ['S', 'T']
    | c => [c]

/-- A choice may be written in any case, and with hyphens for underscores. -/
def choiceName (s : String) : String :=
  String.ofList ((s.toList.flatMap upperChar).map fun c => if c = '-' then '_' else c)

/-- How the choices are listed in messages. -/
def choiceWords (names : List String) : List String :=
  names.map fun s => String.ofList (s.toList.map Char.toLower)

/-- Reads one of the choices. -/
def Data.toChoice {α : Type} (all : List α) (text : α → String) (setting : String)
    (d : Data) : Except ConfigFault α :=
  match d with
  | .text s =>
    match all.find? fun a => text a == choiceName s with
    | some a => .ok a
    | none => .error (.unknownChoice setting s (choiceWords (all.map text)))
  | d => .error (.notText setting d)

/-- Reads an integer. A truth value is none. -/
def Data.toInteger (setting : String) : Data → Except ConfigFault Int
  | .int n => .ok n
  | d => .error (.notInteger setting d)

/-! ## Search options -/

/-- The settings that search options have. -/
def optionNames : List String := ["depth", "strategy", "max_examples"]

/-- Whether a key is the name of one of the settings. -/
def Data.isName (names : List String) : Data → Bool
  | .text s => names.contains s
  | _ => false

/-- The texts of keys, if all keys are texts. -/
def keyTexts : List Data → Option (List String)
  | [] => some []
  | .text s :: keys => (keyTexts keys).map (s :: ·)
  | _ :: _ => none

/-- Refuses settings that search options do not have. -/
def checkOptionNames (m : Mapping) : Except ConfigFault Unit :=
  match (m.map (·.1)).filter fun k => !k.isName optionNames with
  | [] => .ok ()
  | unknown =>
    match keyTexts unknown with
    | some names => .error (.unknownOptions (sortedTexts names))
    | none => .error (.unlistableOptions unknown)

/-- Reads search options. What is not set has its default. -/
def SearchOptions.ofMapping (m : Mapping) : Except ConfigFault SearchOptions := do
  checkOptionNames m
  let depth ←
    match m.get? "depth" with
    | some d => d.toInteger "depth"
    | none => .ok defaultDepth
  let strategy ←
    match m.get? "strategy" with
    | some d => d.toChoice Strategy.all Strategy.text "strategy"
    | none => .ok .sized
  let cap ←
    match m.get? "max_examples" with
    | some .null => .ok none
    | some d => (d.toInteger "max_examples").map some
    | none => .ok none
  match SearchOptions.make depth strategy cap with
  | .ok options => return options
  | .error f => throw (.options f)

/-! ## Suite configurations -/

/-- Reads the depths of single properties. -/
def parseDepths : Mapping → Except ConfigFault (List (String × Int))
  | [] => .ok []
  | (.text name, d) :: m => do
    let depth ← d.toInteger ("depth of " ++ Text.quoted name)
    let depths ← parseDepths m
    return (name, depth) :: depths
  | (k, _) :: _ => .error (.nameNotText k)

/-- The mapping under `depths`. Nothing, or a value that counts as nothing, is an
empty mapping. -/
def depthsOf (m : Mapping) : Except ConfigFault Mapping :=
  match m.get? "depths" with
  | none => .ok []
  | some d =>
    if d.isEmpty then .ok []
    else
      match d with
      | .map entries => .ok entries
      | d => .error (.depthsNotMapping d)

/-- Reads a suite configuration. All settings but `mode` and `depths` are search
options. -/
def SuiteConfig.ofMapping (m : Mapping) : Except ConfigFault SuiteConfig := do
  let mode ←
    match m.get? "mode" with
    | some d => d.toChoice RunMode.all RunMode.text "mode"
    | none => .ok .exhaustive
  let depths ← parseDepths (← depthsOf m)
  let options ← SearchOptions.ofMapping ((m.erase "mode").erase "depths")
  return ⟨options, mode, depths⟩

end FomegaLab
