import SortedRewriting.Engine.Basic
import SortedRewriting.Theory.Digest
import SortedRewriting.Theory.Printing
import SortedRewriting.Transition.Witness
import SortedRewriting.Tree.Digest

/-!
# Traces

A `Trace` is a derivation in readable form: a start term and the steps applied to it, each with its
rule, path and step counter, the resulting term, and the fingerprints of the trees around it. It is
edited step by step: `apply` records one more rewrite after the current version, `rollBack` returns
to an earlier version without forgetting the steps after it, and the next `apply` drops those.

`replayTo` applies recorded steps again and accepts them only if every rewrite succeeds and every
tree has its recorded fingerprint. `ofWitness` reads a trace off the frames of a witness.
-/

namespace SortedRewriting

/-! ## The variables of a rewriting run -/

namespace RunVariable

/-- The encoded term. -/
def tree : String := "x"

/-- The number of steps so far. -/
def step : String := "step"

/-- The rule that is applied. -/
def rule : String := "r"

/-- The path that it is applied at. -/
def path : String := "p"

end RunVariable

/-! ## Errors -/

/-- What is wrong with a witness of a rewriting run. -/
inductive WitnessFault where
  | noFrames
  | missing (frame : Nat) (name : String)
  | unknownRule (tag : RuleTag)
  deriving DecidableEq

/-- The text of a faulty witness. -/
def WitnessFault.message : WitnessFault → String
  | noFrames => "no frames"
  | missing frame name => s!"frame {frame} has no value for '{name}'"
  | unknownRule tag => s!"unknown rule tag {tag.text}"

/-- Why a trace cannot be made, edited or replayed. -/
inductive TraceError where
  | noLongerMatches (step : Nat)
  | versionMismatch
  | fingerprintMismatch (step : Nat)
  | theoryMismatch
  | malformedWitness (fault : WitnessFault)
  | decode (error : DecodeError)
  | eval (error : EvalError)
  deriving DecidableEq

/-- The text of a failed operation on a trace. -/
def TraceError.message : TraceError → String
  | noLongerMatches step => s!"step {step}: pattern no longer matches"
  | versionMismatch => "version mismatch"
  | fingerprintMismatch step => s!"step {step}: fingerprint mismatch"
  | theoryMismatch => "trace belongs to a different theory"
  | malformedWitness fault => "malformed witness: " ++ fault.message
  | decode error => error.message
  | eval error => error.message

/-! ## Traces -/

/-- One rewrite: the rule, the path, the step counter it was applied with, its result as a tree and
as a term, and the fingerprints of the trees before and after it. -/
structure TraceStep where
  tag : RuleTag
  ruleName : String
  path : Path
  step : Int64
  result : Tree
  term : Expr
  pre : Digest
  post : Digest
  deriving DecidableEq

/-- A start term with the rewrites recorded after it, of which the first `version` are in effect. -/
structure Trace where
  theory : Digest
  initial : Tree
  initialTerm : Expr
  steps : List TraceStep
  version : Nat
  deriving DecidableEq

namespace Trace

/-- A decoded tree, for a trace. -/
def decodeTree (e : Engine) (x : Tree) : Except TraceError Expr :=
  (e.book.decode x).mapError .decode

/-- A rewrite, for a trace. -/
def rewriteTree (e : Engine) (x : Tree) (tag : RuleTag) (p : Path) (step : Int64) :
    Except TraceError Tree :=
  (e.rewrite x tag p step).mapError .eval

/-- The trace without steps at a tree. -/
def start (e : Engine) (initial : Tree) : Except TraceError Trace := do
  let initialTerm ← decodeTree e initial
  return { theory := e.theory.fingerprint, initial, initialTerm, steps := [], version := 0 }

/-- The step that leads from one tree to another. -/
def stepBetween (e : Engine) (tag : RuleTag) (path : Path) (step : Int64) (pre result : Tree) :
    Except TraceError TraceStep :=
  match e.rule? tag with
  | none => .error (.malformedWitness (.unknownRule tag))
  | some rule => do
    let term ← decodeTree e result
    return {
      tag, ruleName := rule.name, path, step, result, term, pre := pre.fingerprint,
      post := result.fingerprint }

/-- The last step in effect. -/
def lastStep? (t : Trace) : Option TraceStep :=
  match t.version with
  | 0 => none
  | n + 1 => t.steps[n]?

/-- The tree at the current version. -/
def current (t : Trace) : Tree := (t.lastStep?.map (·.result)).getD t.initial

/-- The term at the current version. -/
def currentTerm (t : Trace) : Expr := (t.lastStep?.map (·.term)).getD t.initialTerm

/-- The steps in effect and one more; later ones are dropped. -/
def record (t : Trace) (s : TraceStep) : Trace :=
  let steps := t.steps.take t.version ++ [s]
  { t with steps, version := steps.length }

/-- Applies a rule to the current tree and records the step. -/
def apply (t : Trace) (e : Engine) (tag : RuleTag) (path : Path) : Except TraceError Trace := do
  let step := Int64.ofNat t.version
  let result ← rewriteTree e t.current tag path step
  if result.isError then .error (.noLongerMatches t.version)
  else return t.record (← stepBetween e tag path step t.current result)

/-- Returns to an earlier version, or to a later one that is still recorded. -/
def rollBack (t : Trace) (version : Nat) : Except TraceError Trace :=
  if t.steps.length < version then .error .versionMismatch else .ok { t with version }

/-- The fingerprint of the start. -/
def initialFingerprint (t : Trace) : Digest := t.initial.fingerprint

/-! ## Replaying -/

/-- Applies recorded steps to a tree; `index` is the number of the first. -/
def replaySteps (e : Engine) (index : Nat) (x : Tree) : List TraceStep → Except TraceError Tree
  | [] => .ok x
  | s :: rest =>
    if x.fingerprint ≠ s.pre then .error (.fingerprintMismatch index)
    else do
      let y ← rewriteTree e x s.tag s.path s.step
      if y.isError then .error (.noLongerMatches index)
      else if y.fingerprint ≠ s.post then .error (.fingerprintMismatch index)
      else replaySteps e (index + 1) y rest

/-- Applies the steps up to a version again, with an engine of the same theory. -/
def replayTo (t : Trace) (e : Engine) (version : Nat) : Except TraceError Tree :=
  if t.steps.length < version then .error .versionMismatch
  else if e.theory.fingerprint ≠ t.theory then .error .theoryMismatch
  else replaySteps e 0 t.initial (t.steps.take version)

/-- Applies all steps again. -/
def replay (t : Trace) (e : Engine) : Except TraceError Tree := t.replayTo e t.steps.length

/-! ## Reading a witness -/

/-- The tree in a frame. -/
def frameTree (f : WitnessFrame) (index : Nat) : Except TraceError Tree :=
  match f.state[RunVariable.tree]? with
  | some (.tree x) => .ok x
  | _ => .error (.malformedWitness (.missing index RunVariable.tree))

/-- The rule chosen in a frame. -/
def frameRule (f : WitnessFrame) (index : Nat) : Except TraceError RuleTag :=
  match f.inputs[RunVariable.rule]? with
  | some (.rule tag) => .ok tag
  | _ => .error (.malformedWitness (.missing index RunVariable.rule))

/-- The path chosen in a frame. -/
def framePath (f : WitnessFrame) (index : Nat) : Except TraceError Path :=
  match f.inputs[RunVariable.path]? with
  | some (.path p) => .ok p
  | _ => .error (.malformedWitness (.missing index RunVariable.path))

/-- The step counter in a frame. -/
def frameStep (f : WitnessFrame) (index : Nat) : Except TraceError Int64 :=
  match f.state[RunVariable.step]? with
  | some (.int n) => .ok n
  | _ => .error (.malformedWitness (.missing index RunVariable.step))

/-- Records a step for each pair of consecutive frames, the first of which has number `index`. -/
def followFrames (e : Engine) (index : Nat) (t : Trace) : List WitnessFrame → Except TraceError Trace
  | before :: after :: rest => do
    let tag ← frameRule before index
    let path ← framePath before index
    let step ← frameStep before index
    let pre ← frameTree before index
    let post ← frameTree after (index + 1)
    let s ← stepBetween e tag path step pre post
    followFrames e (index + 1) (t.record s) (after :: rest)
  | _ => .ok t

/-- The trace of a witness; its steps are not replayed. -/
def ofWitness (e : Engine) (w : Witness) : Except TraceError Trace :=
  match w.frames with
  | [] => .error (.malformedWitness .noFrames)
  | first :: rest => do
    let t ← start e (← frameTree first 0)
    followFrames e 0 t (first :: rest)

/-! ## Text -/

/-- The name of a direction. -/
def directionText : Direction → String
  | .forward => "forward"
  | .reverse => "reverse"

/-- The lines of a step. -/
def stepText (theory : Theory) (number : Nat) (s : TraceStep) : String :=
  s!"\nStep {number}: {s.ruleName} ({s.tag.text}) {directionText s.tag.direction} at {Path.text s.path}"
    ++ "\n\t" ++ theory.renderErased s.term

/-- The start term and all steps, printed with the patterns of the engine's theory. -/
def render (t : Trace) (e : Engine) : String :=
  "Start: " ++ e.theory.renderErased t.initialTerm
    ++ String.join ((t.steps.zipIdx 1).map fun (s, n) => stepText e.theory n s)

end Trace

end SortedRewriting
