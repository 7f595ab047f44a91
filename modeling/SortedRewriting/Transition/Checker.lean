import SortedRewriting.Symbolic.Evaluation
import SortedRewriting.Transition.Format
import SortedRewriting.Transition.Search
import SortedRewriting.Transition.System
import SortedRewriting.Tree.Bounds

/-!
# The explicit-state checker

A `Checker` decides whether a transition system reaches its target within a number of steps. It
takes the bounds that its inputs range over, then named functions, each after those it calls, and
then checks systems over them: `Checker.check` searches the states breadth first, with every
combination of inputs at each state, and answers with a shortest run, with `unreachable`, or, past
its budget of states, with `unknown`.
-/

namespace SortedRewriting

/-- Why the checker gives no answer. -/
inductive CheckerError where
  | notDeclared
  | alreadyDefined (name : String)
  | eval (error : EvalError)
  | system (error : SystemError)
  | notWritten
  | format (error : WitnessFormatError)
  | notRead
  deriving DecidableEq

namespace CheckerError

/-- The text of a failed check. -/
def message : CheckerError → String
  | notDeclared => "datatypes have not been declared"
  | alreadyDefined name => s!"function '{name}' is already defined"
  | eval error => "evaluation failed: " ++ error.message
  | system error => "malformed transition system: " ++ error.message
  | notWritten => "witness I/O error: not written"
  | format error => "witness serialization error: " ++ error.message
  | notRead => "witness I/O error: not read"

/-- The text of the error that lies under this one. -/
def cause? : CheckerError → Option String
  | eval error => some error.message
  | _ => none

end CheckerError

/-- The answer of a check. -/
inductive Outcome where
  | reachable (witness : Witness)
  | unreachable
  | unknown (budget depth : Nat)
  deriving DecidableEq

/-- Why a check with a budget of states gave up at a depth. -/
def budgetText (budget depth : Nat) : String :=
  s!"state budget of {budget} exceeded at depth {depth}"

/-- The text of a check that gave up. -/
def Outcome.reason? : Outcome → Option String
  | unknown budget depth => some (budgetText budget depth)
  | _ => none

/-- The declared bounds, the functions, the budget of states and the place for witnesses. -/
structure Checker where
  bounds? : Option Bounds
  functions : FunctionTable
  maxStates : Nat
  witnessPath? : Option String

namespace Checker

def name : String := "explicit-bmc"

/-- The budget of states where none is given. -/
def defaultMaxStates : Nat := 200000

/-- A checker without declarations. -/
def ofBudget (maxStates : Nat) : Checker := ⟨none, .empty, maxStates, none⟩

/-- Declares the bounds. -/
def declare (c : Checker) (b : Bounds) : Checker := { c with bounds? := some b }

/-- Whether a function may be called in the body of a definition: it is defined, or the one that is
being defined. -/
def mayCall (c : Checker) (f : FunDef) (called : String) : Bool :=
  called == f.name || c.functions.contains called

/-- Defines a function after those it calls. -/
def define (c : Checker) (f : FunDef) : Except CheckerError Checker :=
  if c.bounds?.isNone then .error .notDeclared
  else match f.body.calledFunctions.find? (!c.mayCall f ·) with
    | some missing => .error (.eval (.unknownFunction missing))
    | none =>
      match c.functions.insert? f with
      | none => .error (.alreadyDefined f.name)
      | some functions => .ok { c with functions }

/-- Defines functions in order, up to the first that is refused; the earlier ones stay defined. -/
def defineAll (c : Checker) : List FunDef → Checker × Option CheckerError
  | [] => (c, none)
  | f :: fs =>
    match c.define f with
    | .ok c => defineAll c fs
    | .error e => (c, some e)

/-! ## The graph of a system -/

/-- The values of an input variable. -/
def inputDomain (b : Bounds) (name : String) : Ty → Except SystemError (List Value)
  | .path => .ok (b.paths.map .path)
  | .rule => .ok (b.ruleTags.map .rule)
  | .bool => .ok [.bool false, .bool true]
  | ty => .error (.unboundedInput name ty)

/-- All ways to take one element from each list; the first choice changes last. -/
def combinations {α : Type} : List (List α) → List (List α)
  | [] => [[]]
  | xs :: rest => xs.flatMap fun x => (combinations rest).map (x :: ·)

/-- All combinations of input values. -/
def inputCombinations (b : Bounds) (s : TransitionSystem) : Except SystemError (List (List Value)) := do
  return combinations (← s.inputs.mapM fun (name, ty) => inputDomain b name ty)

/-- The values of variables, by name. -/
def bind (vars : List (String × Ty)) (values : List Value) : Env :=
  .ofList ((vars.map (·.1)).zip values)

/-- The values of both state and input variables. -/
def bindBoth (s : TransitionSystem) (state inputs : List Value) : Env :=
  (bind s.states state).insertMany ((s.inputs.map (·.1)).zip inputs)

/-- The values of the state variables in a phase. -/
def stateValues (c : Checker) (s : TransitionSystem) (phase : Phase) (env : Env) :
    Except CheckerError (List Value) :=
  s.states.mapM fun (name, _) =>
    match s.valueOf phase name with
    | .error e => .error (.system e)
    | .ok t =>
      match c.functions.eval env t with
      | .error e => .error (.eval e)
      | .ok v => .ok v

/-- Whether a state satisfies the target. -/
def holds (c : Checker) (s : TransitionSystem) (target : Term) (state : List Value) :
    Except CheckerError Bool :=
  match (c.functions.eval (bind s.states state) target).bind Value.asBool with
  | .error e => .error (.eval e)
  | .ok b => .ok b

/-- The states of a system as a graph, labelled by combinations of inputs. -/
def graph (c : Checker) (s : TransitionSystem) (target : Term) (start : List Value)
    (choices : List (List Value)) : Graph (List Value) (List Value) CheckerError where
  start := start
  choices := choices
  step state inputs := c.stateValues s .next (bindBoth s state inputs)
  isTarget := c.holds s target

/-- The frames of a run: each earlier state with the inputs chosen there, and the last state. -/
def witnessOf (s : TransitionSystem) (v : Visit (List Value) (List Value)) : Witness where
  frames := (v.trail.reverse.map fun (state, inputs) =>
      ⟨bind s.states state, bind s.inputs inputs⟩) ++ [⟨bind s.states v.state, ∅⟩]

/-- A malformed system as an error of the checker. -/
def ofSystem {α : Type} : Except SystemError α → Except CheckerError α
  | .ok a => .ok a
  | .error e => .error (.system e)

/-- Searches for a state that satisfies the target, at most `bound` steps from the initial one. -/
def check (c : Checker) (s : TransitionSystem) (bound : Nat) : Except CheckerError Outcome :=
  match c.bounds? with
  | none => .error .notDeclared
  | some b => do
    let target ← ofSystem s.validate
    let choices ← ofSystem (inputCombinations b s)
    let start ← c.stateValues s .initial ∅
    match ← (c.graph s target start choices).search c.maxStates bound with
    | .found v => return .reachable (witnessOf s v)
    | .exhausted => return .unreachable
    | .overBudget depth => return .unknown c.maxStates depth

/-! ## Writing the witness -/

/-- Writes bytes under a name, and says whether that worked. -/
abbrev Save (m : Type → Type) := String → List UInt8 → m Bool

/-- Checks a system, and saves the witness if the target is reachable and there is a place for
it. -/
def checkSaving {m : Type → Type} [Monad m] (c : Checker) (save : Save m) (s : TransitionSystem)
    (bound : Nat) : m (Except CheckerError Outcome) :=
  match c.check s bound, c.witnessPath? with
  | .ok (.reachable w), some path => do
    if ← save path w.toBytes then return .ok (.reachable w) else return .error .notWritten
  | answer, _ => return answer

end Checker

/-- The witness in a file, whose bytes may be missing. -/
def Witness.ofFile (content? : Option (List UInt8)) : Except CheckerError Witness :=
  match content? with
  | none => .error .notRead
  | some bs =>
    match Witness.ofBytes bs with
    | .ok w => .ok w
    | .error e => .error (.format e)

end SortedRewriting
