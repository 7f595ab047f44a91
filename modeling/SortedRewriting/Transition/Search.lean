import Std.Data.HashSet

/-!
# Breadth-first search with a state budget

A `Graph` has a start, a list of choices, a successor for each state and choice, and a target; a
step or a target test may fail. `Graph.search` looks for a target at most `bound` steps from the
start. It goes through the states in layers: all states of a layer are tested before any of them is
expanded, and a state that was met before is dropped. Each state carries the run that led to it
first, so that a target comes with a shortest run.

The search gives up when a new state would be one more than `budget` allows.
-/

namespace SortedRewriting

/-- A graph whose edges are labelled by choices. -/
structure Graph (σ ι ε : Type) where
  start : σ
  choices : List ι
  step : σ → ι → Except ε σ
  isTarget : σ → Except ε Bool

/-- A state with the run that led to it, latest step first: each earlier state with the choice
made there. -/
structure Visit (σ ι : Type) where
  state : σ
  trail : List (σ × ι)

/-- The answer of a bounded search: a target, no target within the bound, or a budget that does
not suffice for the states at some depth. -/
inductive SearchResult (σ ι : Type) where
  | found (visit : Visit σ ι)
  | exhausted
  | overBudget (depth : Nat)

/-- The states of the next layer, latest first, and all states met so far; none if the budget does
not suffice. -/
abbrev Layer (σ ι : Type) [BEq σ] [Hashable σ] := Option (Std.HashSet σ × List (Visit σ ι))

namespace Graph

variable {σ ι ε : Type} [BEq σ] [Hashable σ]

/-- Takes all choices at one state. -/
def expand (g : Graph σ ι ε) (budget : Nat) (v : Visit σ ι) :
    List ι → Std.HashSet σ → List (Visit σ ι) → Except ε (Layer σ ι)
  | [], seen, next => .ok (some (seen, next))
  | c :: cs, seen, next => do
    let s ← g.step v.state c
    if seen.contains s then expand g budget v cs seen next
    else if budget ≤ seen.size then return none
    else expand g budget v cs (seen.insert s) (⟨s, (v.state, c) :: v.trail⟩ :: next)

/-- Expands the states of a layer in order. -/
def expandAll (g : Graph σ ι ε) (budget : Nat) :
    List (Visit σ ι) → Std.HashSet σ → List (Visit σ ι) → Except ε (Layer σ ι)
  | [], seen, next => .ok (some (seen, next))
  | v :: vs, seen, next => do
    match ← g.expand budget v g.choices seen next with
    | none => return none
    | some (seen, next) => expandAll g budget vs seen next

/-- The first state of a layer that is a target. -/
def findTarget (g : Graph σ ι ε) : List (Visit σ ι) → Except ε (Option (Visit σ ι))
  | [] => .ok none
  | v :: vs => do if ← g.isTarget v.state then return some v else findTarget g vs

/-- Searches from a layer at some depth, for at most `n` more steps. -/
def searchFrom (g : Graph σ ι ε) (budget : Nat) :
    Nat → Nat → Std.HashSet σ → List (Visit σ ι) → Except ε (SearchResult σ ι)
  | n, depth, seen, layer => do
    match ← g.findTarget layer with
    | some v => return .found v
    | none =>
      match n with
      | 0 => return .exhausted
      | n + 1 =>
        match ← g.expandAll budget layer seen [] with
        | none => return .overBudget (depth + 1)
        | some (_, []) => return .exhausted
        | some (seen, next) => searchFrom g budget n (depth + 1) seen next.reverse

/-- Searches for a target at most `bound` steps from the start. -/
def search (g : Graph σ ι ε) (budget bound : Nat) : Except ε (SearchResult σ ι) :=
  g.searchFrom budget bound 0 ((∅ : Std.HashSet σ).insert g.start) [⟨g.start, []⟩]

end Graph

end SortedRewriting
