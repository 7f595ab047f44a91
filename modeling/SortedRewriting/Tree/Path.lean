import SortedRewriting.Theory.Basic

/-!
# Paths and rule tags

A `Path` addresses a slot of an encoded tree by child indices. A `RuleTag` names a rule by its
index and the direction in which it is applied. The number in its name is a word, which wraps around
as all words do in this library; `RuleTag.overflows` says where that happens.
-/

namespace SortedRewriting

/-- Child indices from the root of a tree; the empty path is the root. -/
abbrev Path := List Nat

/-- The name of a path: `Empty` at the root, otherwise `P` and the indices, which a low line
separates if one of them has two digits or more. -/
def Path.text (p : Path) : String :=
  if p.isEmpty then "Empty"
  else "P" ++ String.intercalate (if p.any (9 < ·) then "_" else "") (p.map toString)

/-- A rule, by index, with a direction. An index is a word of 64 bits; it is kept as a number, since
it is a place in a list. -/
structure RuleTag where
  rule : Nat
  direction : Direction
  deriving DecidableEq, Hashable

/-- The last letter of a rule tag's name. -/
def Direction.letter : Direction → String
  | .forward => "f"
  | .reverse => "r"

namespace RuleTag

/-- The number of the rule, counted from one in words of 64 bits: after the last index it is zero. -/
def number (t : RuleTag) : Nat := if t.rule + 1 = UInt64.size then 0 else t.rule + 1

/-- The name of a rule tag: `R1f`, `R1r`, `R2f`, … -/
def text (t : RuleTag) : String := s!"R{t.number}{t.direction.letter}"

end RuleTag

end SortedRewriting
