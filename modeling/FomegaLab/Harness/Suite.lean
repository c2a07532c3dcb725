-- A suite of property cases, and the suite that checks the laws of the calculus.
import FomegaLab.Harness.Run

namespace FomegaLab

/-- A property with the family it is checked on, and with the depth and the cap
that it is checked at if nothing else is said. -/
structure PropertyCase (σ V : Type) where
  name : String
  depth : Int
  family : Family V
  property : V → CheckIn σ Unit
  cap : Option Int

/-- How a suite is run. The depths override those of the cases with their names. -/
structure SuiteConfig where
  options : SearchOptions
  mode : RunMode
  depths : List (String × Int)

def SuiteConfig.default : SuiteConfig := ⟨.default, .exhaustive, []⟩

/-- How a suite ends without reports. -/
inductive SuiteError (V : Type) where
  | unknownOverrides (names : List String)
  | options (f : OptionsFault)
  | run (e : RunError V)

def SuiteError.message {V : Type} [Showable V] : SuiteError V → String
  | unknownOverrides names =>
    "Unknown properties in depth overrides: " ++ ", ".intercalate names
  | options f => f.message
  | run e => e.message

/-- Texts in the order of their code points. -/
def sortedTexts (texts : List String) : List String :=
  texts.mergeSort fun a b => !decide (b < a)

namespace SuiteConfig

variable {σ V : Type}

/-- The overrides that name no case. -/
def unknownNames (config : SuiteConfig) (cases : List (PropertyCase σ V)) : List String :=
  (config.depths.map (·.1)).filter fun name => !(cases.map (·.name)).contains name

/-- The options that a case is run with. -/
def optionsFor (config : SuiteConfig) (c : PropertyCase σ V) :
    Except OptionsFault SearchOptions :=
  SearchOptions.make ((config.depths.lookup c.name).getD c.depth) config.options.strategy
    (match config.options.cap with
      | some cap => some cap
      | none => c.cap)

end SuiteConfig

/-- A run of a suite. -/
abbrev SuiteRun (σ V : Type) := ExceptT (SuiteError V) (StateM (Session σ V))

namespace SuiteRun

variable {σ V : Type} [Showable V]

/-- Runs one case of a suite. -/
def runCase (config : SuiteConfig) (c : PropertyCase σ V) : SuiteRun σ V Report := do
  match config.optionsFor c with
  | .error f => throw (.options f)
  | .ok options =>
    ExceptT.lift (Session.write (.running c.name options.depth))
    match ← ExceptT.lift (runProperty config.mode c.name options c.family c.property).run with
    | .ok report => return report
    | .error e => throw (.run e)

/-- Runs the cases in order, up to the first error. -/
def runCases (config : SuiteConfig) : List (PropertyCase σ V) → SuiteRun σ V (List Report)
  | [] => return []
  | c :: cases => do
    let report ← runCase config c
    let reports ← runCases config cases
    return report :: reports

/-- Runs a suite. Overrides for cases that the suite does not have are refused
before anything is run. -/
def runSuite (config : SuiteConfig) (cases : List (PropertyCase σ V)) :
    SuiteRun σ V (List Report) :=
  match config.unknownNames cases with
  | [] => runCases config cases
  | names => throw (.unknownOverrides (sortedTexts names))

end SuiteRun

/-! ## Cases on an index -/

/-- A case of a suite on one of the indices. The property may look at the index. -/
structure IndexCase (σ : Type) where
  name : String
  depth : Int
  index : Index
  property : PropertyIn σ
  cap : Option Int

/-- The case with the family of its index. -/
def IndexCase.toCase {σ : Type} (fuel : Nat) (c : IndexCase σ) : PropertyCase σ Sample :=
  ⟨c.name, c.depth, c.index.family fuel, c.property c.index, c.cap⟩

/-! ## The default suite -/

/-- Closed terms grow about tenfold every two sizes, so the laws of terms are
checked on this many examples. -/
def termExamples : Int := 25000

/-- The laws that are checked by default, with their depths. -/
def defaultSuite (fuel : Nat) : List (IndexCase Int) :=
  let unit : PosTy := .builtin .unit
  [⟨"kind checking", 11, .typesOfKind .star, Property.ofTypeLaw Laws.kindCheckingSound, none⟩,
    ⟨"normalization commutes with conversion from generated types", 13, .typesOfKind .star,
      Property.ofTypeLaw (Laws.normalizationCommutes fuel), none⟩,
    ⟨"normal types cannot reduce", 14, .normalTypesOfKind .star,
      Property.ofNormalTypeLaw Laws.normalTypesStuck, none⟩,
    ⟨"type preservation - CK", 18, .termsOfType unit,
      Property.ofTermLaw (Laws.typePreservation fuel Laws.ckEvaluator), some termExamples⟩,
    ⟨"typed CK vs untyped CEK produce the same output", 18, .termsOfType unit,
      Property.ofTermLaw (Laws.machinesAgree fuel Laws.ckEvaluator Laws.cekEvaluator),
      some termExamples⟩]

end FomegaLab
