import SortedRewriting.Symbolic.Function

/-!
# Transition systems

A `TransitionSystem` has state variables with initial and next values, input variables, and a
target, a condition on states. `TransitionSystem.validate` checks that no name is declared twice,
that every state variable has both values with its type, and that the target is a condition.
-/

namespace SortedRewriting

/-- The two values that a state variable needs. -/
inductive Phase where
  | initial
  | next
  deriving DecidableEq

/-- The name of a phase. -/
def Phase.text : Phase → String
  | initial => "initial"
  | next => "next"

/-- Why a transition system cannot be checked. -/
inductive SystemError where
  | declaredTwice (name : String)
  | noValue (name : String) (phase : Phase)
  | valueType (phase : Phase) (name : String) (found expected : Ty)
  | targetType (found : Ty)
  | noTarget
  | unboundedInput (name : String) (ty : Ty)
  deriving DecidableEq

/-- The text of a malformed system. -/
def SystemError.message : SystemError → String
  | declaredTwice name => s!"variable '{name}' declared twice"
  | noValue name phase => s!"state '{name}' has no {phase.text} value"
  | valueType phase name found expected =>
    s!"{phase.text} value of '{name}' has sort {found.text}, expected {expected.text}"
  | targetType found => s!"target has sort {found.text}"
  | noTarget => "no target"
  | unboundedInput name ty => s!"input '{name}' has unbounded sort {ty.text}"

/-- State and input variables in order, the values of state variables, and the target. -/
structure TransitionSystem where
  states : List (String × Ty)
  inputs : List (String × Ty)
  init : Std.ExtTreeMap String Term
  next : Std.ExtTreeMap String Term
  target? : Option Term

namespace TransitionSystem

/-- The values of state variables in a phase. -/
def values (s : TransitionSystem) : Phase → Std.ExtTreeMap String Term
  | .initial => s.init
  | .next => s.next

/-- The first name that occurs a second time. -/
def firstRepeated (seen : List String) : List String → Option String
  | [] => none
  | n :: ns => if n ∈ seen then some n else firstRepeated (n :: seen) ns

/-- The value of a state variable in a phase. -/
def valueOf (s : TransitionSystem) (phase : Phase) (name : String) : Except SystemError Term :=
  match (s.values phase)[name]? with
  | some t => .ok t
  | none => .error (.noValue name phase)

/-- Checks that a state variable has a value of its type. -/
def checkValue (s : TransitionSystem) (name : String) (ty : Ty) (phase : Phase) :
    Except SystemError Unit := do
  let t ← s.valueOf phase name
  if t.ty = ty then .ok () else .error (.valueType phase name t.ty ty)

/-- Checks the target, which has to be a condition. -/
def checkTarget (s : TransitionSystem) : Except SystemError Term :=
  match s.target? with
  | none => .error .noTarget
  | some t => if t.ty = .bool then .ok t else .error (.targetType t.ty)

/-- Checks the names, then the values of each state variable, then the target, and returns it. -/
def validate (s : TransitionSystem) : Except SystemError Term := do
  match firstRepeated [] ((s.states ++ s.inputs).map (·.1)) with
  | some name => .error (.declaredTwice name)
  | none =>
    s.states.forM fun (name, ty) => do
      s.checkValue name ty .initial
      s.checkValue name ty .next
    s.checkTarget

end TransitionSystem

end SortedRewriting
