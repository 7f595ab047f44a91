import SortedRewriting.Config.Basic
import SortedRewriting.Trace.Basic

/-!
# Bounded reachability between terms

A `Query` asks whether a start term rewrites to a goal in a bounded number of steps. It is checked
as a transition system over the functions of the engine:

* the state is the encoded term `x` and the number of steps so far, `step`, from the start and zero;
* the inputs are a rule `r` and a path `p`;
* the next state is `rewrite (x, r, p, step)` and `step + 1`, and the target is the encoded goal.

A witness is turned into a trace, and the trace is replayed before it is returned.
-/

namespace SortedRewriting

/-- Any error of the library, by its origin. -/
inductive Failure where
  | shape (error : ShapeError)
  | elaboration (error : ElaborationError)
  | decode (error : DecodeError)
  | eval (error : EvalError)
  | checker (error : CheckerError)
  | config (error : ConfigError)
  | trace (error : TraceError)
  deriving DecidableEq

/-- The text of the error. -/
def Failure.message : Failure → String
  | shape error => error.message
  | elaboration error => error.message
  | decode error => error.message
  | eval error => error.message
  | checker error => error.message
  | config error => error.message
  | trace error => error.message

/-- The answer to a query. -/
inductive SearchOutcome where
  | reachable (trace : Trace)
  | unreachable
  | unknown (budget depth : Nat)
  deriving DecidableEq

namespace SearchOutcome

def isReachable : SearchOutcome → Bool
  | reachable _ => true
  | _ => false

def trace? : SearchOutcome → Option Trace
  | reachable t => some t
  | _ => none

/-- The text of an answer. -/
def text : SearchOutcome → String
  | reachable _ => "reachable"
  | unreachable => "unreachable"
  | unknown budget depth => "unknown: " ++ budgetText budget depth

end SearchOutcome

/-- An engine that knows the symbols of two elaborated terms, the terms, and the settings. -/
structure Query where
  engine : Engine
  start : Expr
  goal : Expr
  config : SearchConfig

namespace Query

/-- Elaborates the theory and both terms. -/
def pose (theory : Theory) (start goal : Expr) (config : SearchConfig) : Except Failure Query := do
  config.validate.mapError .config
  let engine ← (Engine.compile theory config.depth).mapError .elaboration
  let start ← (engine.theory.elaborateExpr start).mapError .elaboration
  let goal ← (engine.theory.elaborateExpr goal).mapError .elaboration
  return { engine := (engine.register start).register goal, start, goal, config }

/-- The encoded start. -/
def startTree (q : Query) : Tree := q.engine.treeOf q.start

/-- The encoded goal. -/
def goalTree (q : Query) : Tree := q.engine.treeOf q.goal

/-- The system that applies a rule in each step. -/
def buildSystem (q : Query) : Build TransitionSystem := do
  let x ← Build.var RunVariable.tree .tree
  let step ← Build.var RunVariable.step .int
  let r ← Build.var RunVariable.rule .rule
  let p ← Build.var RunVariable.path .path
  let start ← Build.tree q.startTree
  let zero ← Build.int 0
  let next ← Build.apply Engine.rewriteName [x, r, p, step] .tree
  let succ ← Build.add step (← Build.int 1)
  let target ← Build.eq x (← Build.tree q.goalTree)
  return {
    states := [(RunVariable.tree, .tree), (RunVariable.step, .int)]
    inputs := [(RunVariable.rule, .rule), (RunVariable.path, .path)]
    init := .ofList [(RunVariable.tree, start), (RunVariable.step, zero)]
    next := .ofList [(RunVariable.tree, next), (RunVariable.step, succ)]
    target? := some target }

/-- The transition system of the query. -/
def system (q : Query) : TransitionSystem := q.buildSystem.result

/-- A checker with the bounds and functions of the query's engine, and the first error if it
refuses a function. -/
def prepare (q : Query) (c : Checker) : Checker × Option CheckerError :=
  (c.declare q.engine.bounds).defineAll q.engine.functions.defs

/-- The answer to a query, read off the answer of the checker. -/
def conclude (q : Query) : Outcome → Except Failure SearchOutcome
  | .unreachable => .ok .unreachable
  | .unknown budget depth => .ok (.unknown budget depth)
  | .reachable w => do
    let t ← (Trace.ofWitness q.engine w).mapError .trace
    let _ ← (t.replay q.engine).mapError .trace
    return .reachable t

/-- Runs the query on a checker; returns the checker as the run leaves it, and the answer. -/
def runOn {m : Type → Type} [Monad m] (q : Query) (c : Checker) (save : Checker.Save m) :
    m (Checker × Except Failure SearchOutcome) := do
  match q.prepare c with
  | (c, some e) => return (c, .error (.checker e))
  | (c, none) =>
    match ← c.checkSaving save q.system q.config.maxSteps with
    | .error e => return (c, .error (.checker e))
    | .ok outcome => return (c, q.conclude outcome)

/-- A checker with the budget and the place for witnesses that the settings give. -/
def checker (q : Query) : Checker :=
  { Checker.ofBudget q.config.maxStates with witnessPath? := q.config.witnessPath? }

/-- Runs the query on a checker of its own. -/
def run {m : Type → Type} [Monad m] (q : Query) (save : Checker.Save m) :
    m (Except Failure SearchOutcome) :=
  return (← q.runOn q.checker save).2

end Query

end SortedRewriting
