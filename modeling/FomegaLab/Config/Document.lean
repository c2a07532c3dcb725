-- Configuration documents: the format follows from the name of the file, and a
-- document has to hold a mapping.
import FomegaLab.Config.Document.Json
import FomegaLab.Config.Document.Toml
import FomegaLab.Config.Document.Yaml
import FomegaLab.Config.Parse

namespace FomegaLab

inductive Format where
  | yaml
  | json
  | toml
deriving DecidableEq

/-- Why a document gives no configuration. -/
inductive DocumentFault where
  | unknownFormat (file : String)
  | unreadable (f : ReadFault)
  | notMapping (found : Data)
  | config (f : ConfigFault)

def DocumentFault.message : DocumentFault → String
  | .unknownFormat file =>
    "Unrecognized configuration format: " ++ file ++ ". Expected .yaml, .yml, .json, or .toml"
  | .unreadable f => f.message
  | .notMapping found =>
    "Configuration file must contain a mapping at top level, got " ++ found.typeName
  | .config f => f.message

namespace Document

/-- The last point of a file name with what follows. A point at either end of the
name makes no suffix. -/
def suffix (file : String) : List Char :=
  let after := file.toList.reverse.takeWhile (· != '.')
  let before := (file.toList.reverse.dropWhile (· != '.')).drop 1
  if after.isEmpty || before.isEmpty then [] else '.' :: after.reverse

/-- The format that a file name asks for, in any case. -/
def format? (file : String) : Option Format :=
  match String.ofList ((suffix file).map Char.toLower) with
  | ".yaml" | ".yml" => some .yaml
  | ".json" => some .json
  | ".toml" => some .toml
  | _ => none

/-- Every line break as a line feed. -/
def unifyBreaks : List Char → List Char
  | [] => []
  | '\r' :: '\n' :: cs => '\n' :: unifyBreaks cs
  | '\r' :: cs => '\n' :: unifyBreaks cs
  | c :: cs => c :: unifyBreaks cs

/-- The value that a document holds. -/
def parse (format : Format) (content : String) : Read Data :=
  let cs := unifyBreaks content.toList
  match format with
  | .yaml => Yaml.document cs
  | .json => Json.document cs
  | .toml => Toml.document cs

/-- The mapping that a document holds. An empty document holds an empty one. -/
def mapping (file content : String) : Except DocumentFault Mapping :=
  match format? file with
  | none => .error (.unknownFormat file)
  | some format =>
    match parse format content with
    | .error f => .error (.unreadable f)
    | .ok .null => .ok []
    | .ok (.map m) => .ok m
    | .ok d => .error (.notMapping d)

/-- The search options that a document holds. -/
def searchOptions (file content : String) : Except DocumentFault SearchOptions := do
  match SearchOptions.ofMapping (← mapping file content) with
  | .ok options => return options
  | .error f => throw (.config f)

/-- The suite configuration that a document holds. -/
def suiteConfig (file content : String) : Except DocumentFault SuiteConfig := do
  match SuiteConfig.ofMapping (← mapping file content) with
  | .ok config => return config
  | .error f => throw (.config f)

end Document

end FomegaLab
