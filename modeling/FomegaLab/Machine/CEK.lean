-- The CEK machine: it evaluates untyped terms with environments. Lambdas and
-- delays evaluate to closures, and a value that leaves the machine is discharged,
-- which puts the environment of a closure into its body.
import FomegaLab.Machine.Fault
import FomegaLab.Named.Close

namespace FomegaLab.CEK

mutual
inductive Value where
  | const (literal : Literal)
  | closure (name : Name) (body : UTerm) (env : Env)
  | suspension (body : UTerm) (env : Env)

/-- The values of the names in scope, newest first: a new binding hides an older
one of the same name. -/
inductive Env where
  | empty
  | bind (name : Name) (value : Value) (rest : Env)
end

namespace Env

def find? : Env → Name → Option Value
  | .empty, _ => none
  | .bind y value rest, x => if y = x then some value else rest.find? x

/-- An environment from bindings, the last of which is the newest. -/
def ofBindings (bindings : List (Name × Value)) : Env :=
  bindings.foldl (fun env b => .bind b.1 b.2 env) .empty

end Env

mutual
/-- Turns a machine value back into a term. -/
def Value.discharge : Value → UTerm
  | .const l => .const l
  | .closure x body env => .lam x (body.close env.dischargeAt [x])
  | .suspension body env => .delay (body.close env.dischargeAt [])

/-- The term that an environment stands for at a name. -/
def Env.dischargeAt : Env → Name → Option UTerm
  | .empty, _ => none
  | .bind y value rest, x => if y = x then some value.discharge else rest.dischargeAt x
end

/-- What waits for the value of the focus. -/
inductive Frame where
  | awaitArgument (argument : UTerm) (env : Env)
  | awaitFunction (function : Value)
  | force

structure State where
  focus : UTerm
  env : Env
  stack : List Frame

/-- Where one step leads. -/
inductive Outcome where
  | next (state : State)
  | value (value : Value)
  | fault (f : Fault UTerm)

def start (t : UTerm) : State := ⟨t, .empty, []⟩

/-- Gives a value to the innermost frame. -/
def giveBack (value : Value) : List Frame → Outcome
  | [] => .value value
  | .awaitArgument argument env :: stack => .next ⟨argument, env, .awaitFunction value :: stack⟩
  | .awaitFunction function :: stack =>
    match function with
    | .closure x body env => .next ⟨body, .bind x value env, stack⟩
    | function => .fault ⟨.appliedNonFunction, some (.app function.discharge value.discharge)⟩
  | .force :: stack =>
    match value with
    | .suspension body env => .next ⟨body, env, stack⟩
    | value => .fault ⟨.forcedNonDelay, some (.force value.discharge)⟩

/-- One step: looks at the focus, and gives its value back if it has one. -/
def step (s : State) : Outcome :=
  match s.focus with
  | .var x =>
    match s.env.find? x with
    | some value => giveBack value s.stack
    | none => .fault ⟨.freeVariable x, some (.var x)⟩
  | .lam x body => giveBack (.closure x body s.env) s.stack
  | .delay body => giveBack (.suspension body s.env) s.stack
  | .const l => giveBack (.const l) s.stack
  | .app function argument => .next ⟨function, s.env, .awaitArgument argument s.env :: s.stack⟩
  | .force term => .next ⟨term, s.env, .force :: s.stack⟩
  | .error => .fault ⟨.evaluatedError, some .error⟩

/-- Steps until the machine ends, or ends with `exhausted` after `steps` steps. -/
def run (exhausted : Fault UTerm) : (steps : Nat) → State → Except (Fault UTerm) UTerm
  | 0, _ => .error exhausted
  | steps + 1, s =>
    match step s with
    | .next s => run exhausted steps s
    | .value v => .ok v.discharge
    | .fault f => .error f

/-- Evaluates a closed term. A budget that is not positive allows no step. -/
def evaluate (budget : Int) (t : UTerm) : Except (Fault UTerm) UTerm :=
  run ⟨.outOfBudget .cek budget, some t⟩ budget.toNat (start t)

end FomegaLab.CEK
