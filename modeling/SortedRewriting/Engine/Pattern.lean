import SortedRewriting.CodeBook
import SortedRewriting.Expr.Digest
import SortedRewriting.Symbolic.Term

/-!
# Pattern tests

`patternTest` builds the condition that a tree matches a pattern. The positions of the pattern fall
into classes of equal subterms. A class whose subterm is no variable fixes the tag at its first
position and wants the slots behind the children vacant; at all other positions of a class stands
the same tree as at the first.
-/

namespace SortedRewriting

/-- The conditions on the node at the first position of a class: none for a variable. -/
def nodeConditions (book : CodeBook) (width : Nat) (pattern : Expr) (here : Term) :
    Build (List Term) :=
  if pattern.isVar then return []
  else do
    let tag ← Build.eq (← Build.tagOf here) (← Build.int (book.code pattern.sym))
    let slots := List.range' pattern.args.length (width - pattern.args.length)
    let vacant ← slots.mapM fun slot => do Build.test .vacant (← Build.select here slot)
    return tag :: vacant

/-- The conditions on the positions of a class. -/
def classConditions (book : CodeBook) (width : Nat) (x : Term) (c : Expr.SubtermClass) :
    Build (List Term) := do
  let here ← Build.selectPath x c.representative
  let node ← nodeConditions book width c.term here
  let equal ← c.others.mapM fun p => do Build.eq (← Build.selectPath x p) here
  return node ++ equal

/-- The condition that the tree `x` matches a pattern. -/
def patternTest (book : CodeBook) (width : Nat) (x : Term) (pattern : Expr) : Build Term := do
  let conditions ← pattern.classes.mapM (classConditions book width x)
  Build.all conditions.flatten

end SortedRewriting
