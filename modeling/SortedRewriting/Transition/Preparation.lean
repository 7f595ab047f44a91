import SortedRewriting.Transition.Checker

/-!
# Preparing a checker in place

A checker is held by its owner and prepared in place, before it checks anything. A `Preparation` is
a change of it, which may fail part of the way, with what it has written by then.
`Preparation.define` does to the checker that is held what `Checker.define` computes.

`Checker.prepare` makes any sequence of requests (`Request`), whether they succeed or fail, and
keeps their answers.
-/

namespace SortedRewriting

/-- A change of a checker in place, which may fail. -/
abbrev Preparation := ExceptT CheckerError (StateM Checker)

namespace Preparation

/-- What a change returns, and the checker after it. -/
def on {α : Type} (change : Preparation α) (c : Checker) : Except CheckerError α × Checker :=
  (change.run.run c).run

/-- Declares the bounds. -/
def declare (b : Bounds) : Preparation Unit := modify (·.declare b)

/-- Puts a definition at the end of the table, and says whether its name was free. -/
def insert (f : FunDef) : Preparation Bool := do
  match (← get).functions.insert? f with
  | none => return false
  | some functions =>
    modify fun c => { c with functions }
    return true

/-- Defines a function after those it calls. -/
def define (f : FunDef) : Preparation Unit := do
  if (← get).bounds?.isNone then throw .notDeclared
  let c ← get
  match f.body.calledFunctions.find? (!c.mayCall f ·) with
  | some missing => throw (.eval (.unknownFunction missing))
  | none => if !(← insert f) then throw (.alreadyDefined f.name)

end Preparation

/-- A request to prepare a checker. -/
inductive Request where
  | declare (b : Bounds)
  | define (f : FunDef)
  deriving DecidableEq

/-- The answer to a request, and the checker after it. -/
def Request.on (c : Checker) : Request → Except CheckerError Unit × Checker
  | declare b => (Preparation.declare b).on c
  | define f => (Preparation.define f).on c

/-- Requests with their answers, in order. -/
abbrev Log := List (Request × Except CheckerError Unit)

/-- The functions that were defined, in order. -/
def Log.defined (log : Log) : List FunDef :=
  log.filterMap fun
    | (.define f, .ok _) => some f
    | _ => none

/-- Makes requests one after the other. -/
def Checker.prepare : Checker → List Request → Log × Checker
  | c, [] => ([], c)
  | c, r :: rs =>
    let (answer, c) := r.on c
    let (log, c) := c.prepare rs
    ((r, answer) :: log, c)

end SortedRewriting
