import SortedRewriting.Tree.Path

/-!
# Bounds

`Bounds` fixes the finite ranges that a search runs over: the slots of a node, the paths up to a
depth, and the tags of the rules. `Bounds.paths` lists the paths by length and then
lexicographically; `Bounds.containsPath` says which paths these are.
-/

namespace SortedRewriting

/-- The largest number of arguments, the greatest length of a path and the number of rules. -/
structure Bounds where
  arity : Nat
  depth : Nat
  ruleCount : Nat
  deriving DecidableEq

/-- All paths of one length over indices up to `arity`, in lexicographic order. -/
def Path.ofLength (arity : Nat) : Nat → List Path
  | 0 => [[]]
  | n + 1 => (List.range (arity + 1)).flatMap fun i => (ofLength arity n).map (i :: ·)

namespace Bounds

/-- The slots of a node: one for its sort and one for each argument. -/
def width (b : Bounds) : Nat := b.arity + 1

/-- The paths below the root, by length. -/
def layers (b : Bounds) : List (List Path) :=
  (List.range b.depth).map fun n => Path.ofLength b.arity (n + 1)

/-- All paths: the root, and then the layers. -/
def paths (b : Bounds) : List Path := [] :: b.layers.flatten

/-- Whether a path stays within the depth and its indices within the slots. -/
def containsPath (b : Bounds) (p : Path) : Bool :=
  p.length ≤ b.depth && p.all (· ≤ b.arity)

/-- The tags of all rules, each forwards and then in reverse. -/
def ruleTags (b : Bounds) : List RuleTag :=
  (List.range b.ruleCount).flatMap fun r => [⟨r, .forward⟩, ⟨r, .reverse⟩]

end Bounds

end SortedRewriting
