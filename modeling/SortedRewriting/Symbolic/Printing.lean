import SortedRewriting.Symbolic.Term

/-!
# The text of a symbolic term

Terms print fully bracketed with the operation first, a shared node wherever it is used.
-/

namespace SortedRewriting

/-- The tester of a form. -/
def Form.text : Form → String
  | node => "(_ is ast)"
  | vacant => "(_ is None)"
  | error => "(_ is Error)"

/-- The name of a connective. -/
def Connective.text : Connective → String
  | all => "and"
  | any => "or"

/-- The sign of an operation on integers. -/
def Arith.text : Arith → String
  | add => "+"
  | mul => "*"

namespace Term

mutual

/-- The text of a term. -/
def text : Term → String
  | .const _ v => v.text
  | .var _ s _ => s
  | .node _ t cs _ => "(ast " ++ text t ++ textAll cs ++ ")"
  | .select _ a i => s!"(a{i} {text a})"
  | .tagOf _ a => s!"(node {text a})"
  | .test _ f a => s!"({f.text} {text a})"
  | .eq _ a b => s!"(= {text a} {text b})"
  | .join _ op as => s!"({op.text}{textAll as})"
  | .not _ a => s!"(not {text a})"
  | .ite _ c y n => s!"(ite {text c} {text y} {text n})"
  | .arith _ op a b => s!"({op.text} {text a} {text b})"
  | .apply _ f as _ => s!"({f}{textAll as})"

/-- The texts of operands, each behind a blank. -/
def textAll : List Term → String
  | [] => ""
  | a :: as => " " ++ text a ++ textAll as

end

end Term

end SortedRewriting
