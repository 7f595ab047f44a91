import SortedRewriting.Trace.Basic

/-!
# Editing a trace in place

A trace is held by its owner and edited in place. An `Editor` is such a change: it reads and writes
the trace, and may fail part of the way, with what it has written by then. `Editor.apply` and
`Editor.rollBack` do to the trace that is held what `Trace.apply` and `Trace.rollBack` compute.

`Trace.edited` is the trace after any sequence of requests (`Edit`), whether they succeed or fail.
-/

namespace SortedRewriting

/-- A change of a trace in place, which may fail. -/
abbrev Editor := ExceptT TraceError (StateM Trace)

namespace Editor

/-- What a change returns, and the trace after it. -/
def on {α : Type} (editor : Editor α) (t : Trace) : Except TraceError α × Trace :=
  (editor.run.run t).run

/-- The trace after a change, whether it succeeds or fails. -/
def after {α : Type} (editor : Editor α) (t : Trace) : Trace := (editor.on t).2

/-- Drops the steps that are not in effect, and adds one, which takes effect. -/
def record (s : TraceStep) : Editor Unit := do
  modify fun t => { t with steps := t.steps.take t.version }
  modify fun t => { t with steps := t.steps ++ [s] }
  modify fun t => { t with version := t.steps.length }

/-- Applies a rule to the current tree, records the step and returns it. -/
def apply (e : Engine) (tag : RuleTag) (path : Path) : Editor TraceStep := do
  let t ← get
  let result ← Trace.rewriteTree e t.current tag path (.ofNat t.version)
  if result.isError then throw (.noLongerMatches t.version)
  let s ← Trace.stepBetween e tag path (.ofNat t.version) t.current result
  record s
  return s

/-- Makes another version the current one. -/
def rollBack (version : Nat) : Editor Unit := do
  if (← get).steps.length < version then throw .versionMismatch
  modify fun t => { t with version }

end Editor

/-- A request to change a trace. -/
inductive Edit where
  | apply (tag : RuleTag) (path : Path)
  | rollBack (version : Nat)
  deriving DecidableEq

/-- The trace after a request, whether it succeeds or fails. -/
def Edit.after (e : Engine) (t : Trace) : Edit → Trace
  | apply tag path => (Editor.apply e tag path).after t
  | rollBack version => (Editor.rollBack version).after t

/-- The trace after requests one after the other. -/
def Trace.edited (e : Engine) : Trace → List Edit → Trace
  | t, [] => t
  | t, edit :: edits => (edit.after e t).edited e edits

end SortedRewriting
