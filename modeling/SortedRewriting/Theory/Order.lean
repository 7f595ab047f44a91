import SortedRewriting.Theory.Basic

/-!
# The order of operators

An operator depends on the operators that occur in its result sort and argument patterns.
`Theory.operatorOrder` lists the operators in layers: first those that depend on none, then those
that depend on these only, and so on, by symbol inside a layer. Operators that no layer takes are
on or above a cycle.
-/

namespace SortedRewriting.Theory

/-- The operators that occur in the result sort or in the argument patterns. -/
def dependencies (t : Theory) (decl : OpDecl) : List String :=
  let occurring : Std.ExtTreeSet String :=
    .ofList ((decl.sort :: decl.args).flatMap fun e => e.symbols.toList)
  occurring.toList.filter t.ops.contains

/-- An operator that is not placed yet, with the operators it still waits for. -/
structure Pending where
  sym : String
  waitsFor : List String

namespace Pending

def isReady (p : Pending) : Bool := p.waitsFor.isEmpty

/-- Forgets the dependencies that are placed. -/
def without (placed : List String) (p : Pending) : Pending :=
  { p with waitsFor := p.waitsFor.filter (· ∉ placed) }

/-- The ready operators of a list. -/
def layer (ps : List Pending) : List String := (ps.filter isReady).map (·.sym)

/-- The other operators, which no longer wait for the ready ones. -/
def remaining (ps : List Pending) : List Pending :=
  (ps.filter (!·.isReady)).map (without (layer ps))

/-- Places at most `n` layers; returns the order and the operators left over. -/
def place : Nat → List Pending → List String × List Pending
  | 0, ps => ([], ps)
  | n + 1, ps =>
    if (layer ps).isEmpty then ([], ps)
    else
      let (order, stuck) := place n (remaining ps)
      (layer ps ++ order, stuck)

end Pending

/-- Every operator with its dependencies, by symbol. -/
def pending (t : Theory) : List Pending :=
  t.ops.toList.map fun (sym, decl) => ⟨sym, t.dependencies decl⟩

/-- The operators in dependency order, or the operators from which a cycle can be reached. No
theory has more layers than operators. -/
def operatorOrder (t : Theory) : Except (List String) (List String) :=
  match Pending.place t.pending.length t.pending with
  | (order, []) => .ok order
  | (_, stuck) => .error (stuck.map (·.sym))

end SortedRewriting.Theory
