-- Counterexamples: plain data, one constructor per way in which the calculus can
-- break a law, and the report that is written about each.
import FomegaLab.Text.Shown

namespace FomegaLab

inductive Counterexample where
  /-- Normalizing a named type differs from naming the normal form. -/
  | commute (kind : Kind) (type : PosTy) (namedThenNormal normalThenNamed : Ty)
  | normalReduces (kind : Kind) (type : PosTy)
  | kindCheck (kind : Kind) (type : PosTy)
  | kindPreservation (kind : Kind) (type : PosTy)
  | typeCheck (type : PosTy) (term : PosTerm)
  | typePreservation (type : PosTy) (term : PosTerm) (before after : Term)
  /-- The results of the evaluators, each labelled by the one that gave it. -/
  | evaluation (type : PosTy) (term : PosTerm) (outputs : List (String × UTerm))
deriving DecidableEq

namespace Counterexample

def typeAtKind (t : PosTy) (k : Kind) : String := t.shown ++ " :: " ++ k.pretty

def termAtType (e : PosTerm) (t : PosTy) : String := e.shown ++ " :: " ++ t.shown

def report : Counterexample → String
  | commute kind type left right =>
    "Counterexample found: " ++ typeAtKind type kind ++ "\n"
      ++ "- convert then normalize gives " ++ left.pretty .default ++ "\n"
      ++ "- normalize then convert gives " ++ right.pretty .default ++ "\n"
  | normalReduces kind type =>
    "Counterexample found: normal type " ++ type.shown ++ " of kind " ++ kind.pretty
      ++ " can reduce."
  | kindCheck kind type => "Counterexample found (kind check fail): " ++ typeAtKind type kind
  | kindPreservation kind type =>
    "Counterexample found (kind preservation fail): " ++ typeAtKind type kind
  | typeCheck type term => "Counterexample found (typecheck fail): " ++ termAtType term type
  | typePreservation type term before after =>
    "Counterexample found: " ++ termAtType term type ++ "\n"
      ++ "before evaluation: " ++ before.pretty .default ++ "\n"
      ++ "after evaluation:  " ++ after.pretty .default ++ "\n"
  | evaluation type term outputs =>
    "UntypedTermEvaluationMismatch\n"
      ++ "Counterexample found: " ++ termAtType term type ++ "\n"
      ++ String.join (outputs.map fun o => o.1 ++ " evaluation: " ++ o.2.pretty .default ++ "\n")

end Counterexample

end FomegaLab
