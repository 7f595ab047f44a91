import SortedRewriting.CodeBook
import SortedRewriting.Expr.Digest
import SortedRewriting.Symbolic.Term

/-!
# Symbolic construction of encoded terms

`construct` builds a symbolic term whose value is the encoding of a target expression. With a
source, an expression and the symbolic tree it was matched against, every subterm of the target
that occurs in the source is selected from that tree instead of being built again, at its first
position there. A subterm that is built twice is built once and shared. Subterms are looked up by
digest and compared before they are shared.

A variable of the target that the source lacks is introduced: its tag is a fresh code of the step.
-/

namespace SortedRewriting

/-- The expression that was matched and the symbolic tree that it matches. -/
structure Source where
  expr : Expr
  tree : Term

/-- What a construction works with: codes and width of nodes, the source with the first position of
each of its digests, the introduced variables in order, and the step that introduces them. -/
structure Construction where
  book : CodeBook
  width : Nat
  source? : Option Source
  representatives : Std.ExtTreeMap Digest Position
  introduced : List String
  step : Term

/-- The subterms built so far, by digest. -/
abbrev Built := Std.ExtTreeMap Digest (Expr × Term)

namespace Construction

/-- The construction of a target, from a source if there is one. -/
def start (book : CodeBook) (width : Nat) (target : Expr) (source? : Option Source) (step : Term) :
    Construction where
  book := book
  width := width
  source? := source?
  representatives := match source? with
    | some source => source.expr.representatives
    | none => ∅
  introduced := match source? with
    | some source => target.varsOutside source.expr
    | none => []
  step := step

/-- The source tree and the position at which a subterm occurs in the source. -/
def reference? (c : Construction) (target : Expr) : Option (Term × Position) :=
  match c.source?, c.representatives[target.digest]? with
  | some source, some p => if source.expr.subterm? p = some target then some (source.tree, p) else none
  | _, _ => none

/-- The tag of a node: `-(step * stride + index)` for an introduced variable, the code of the
symbol otherwise. -/
def tag (c : Construction) (kind : Kind) (sym : String) : Build Term :=
  match (if kind = .var then c.introduced.idxOf? sym else none) with
  | some i => do
    let scaled ← Build.mul (← Build.int (-(Int64.ofNat c.book.stride))) c.step
    Build.add scaled (← Build.int (-(Int64.ofNat (i + 1))))
  | none => Build.int (c.book.code sym)

/-- Builds a subterm unless the same was built before; another subterm of the same digest is left
on record. -/
def share (target : Expr) (synthesize : StateT Built Build Term) : StateT Built Build Term := do
  match (← get)[target.digest]? with
  | some (e, t) => if e = target then return t else synthesize
  | none =>
    let t ← synthesize
    modify (·.insert target.digest (target, t))
    return t

mutual

/-- Builds a subterm of the target: from the source, from an earlier occurrence, or node by node. -/
def term (c : Construction) (target : Expr) : StateT Built Build Term :=
  match c.reference? target with
  | some (tree, p) => Build.selectPath tree p
  | none =>
    share target <| match target with
      | .node k s as => do
        let tag ← c.tag k s
        let children ← terms c as
        Build.node tag children c.width

/-- Builds the children of a node from left to right. -/
def terms (c : Construction) : List Expr → StateT Built Build (List Term)
  | [] => return []
  | a :: as => do
    let t ← term c a
    let ts ← terms c as
    return t :: ts

end

end Construction

/-- Builds a target expression, sharing what it has in common with a source. -/
def construct (book : CodeBook) (width : Nat) (target : Expr) (source? : Option Source)
    (step : Term) : Build Term :=
  ((Construction.start book width target source? step).term target).run' ∅

end SortedRewriting
