import SortedRewriting.Tree.Basic
import Std.Data.ExtTreeMap

/-!
# Values

Symbolic terms take values of five types: trees, paths, rule tags, 64-bit integers and booleans. An
`Env` gives values to variables by name.
-/

namespace SortedRewriting

/-- The type of a symbolic term. -/
inductive Ty where
  | tree
  | path
  | rule
  | int
  | bool
  deriving DecidableEq, Hashable

/-- The name of a type. -/
def Ty.text : Ty → String
  | tree => "AST"
  | path => "Path"
  | rule => "Rule"
  | int => "Int"
  | bool => "Bool"

/-- A value of one of the five types. -/
inductive Value where
  | tree (x : Tree)
  | path (p : Path)
  | rule (r : RuleTag)
  | int (n : Int64)
  | bool (b : Bool)
  deriving DecidableEq, Hashable

/-- Why a symbolic term has no value. -/
inductive EvalError where
  | unboundVariable (name : String)
  | unknownFunction (name : String)
  | arity (name : String) (expected found : Nat)
  | mismatch (expected found : Ty)
  | callDepth
  deriving DecidableEq

/-- The text of a failed evaluation. -/
def EvalError.message : EvalError → String
  | unboundVariable name => s!"unbound variable '{name}'"
  | unknownFunction name => s!"unknown function '{name}'"
  | arity name expected found => s!"function '{name}' expects {expected} arguments, got {found}"
  | mismatch expected found => s!"sort mismatch: expected {expected.text}, found {found.text}"
  | callDepth => "calls are nested too deeply"

namespace Value

def ty : Value → Ty
  | tree _ => .tree
  | path _ => .path
  | rule _ => .rule
  | int _ => .int
  | bool _ => .bool

/-- The text of a value. -/
def text : Value → String
  | tree x => x.text
  | path p => Path.text p
  | rule r => r.text
  | int n => toString n.toInt
  | bool b => if b then "true" else "false"

def asTree : Value → Except EvalError Tree
  | tree x => .ok x
  | v => .error (.mismatch .tree v.ty)

def asInt : Value → Except EvalError Int64
  | int n => .ok n
  | v => .error (.mismatch .int v.ty)

def asBool : Value → Except EvalError Bool
  | bool b => .ok b
  | v => .error (.mismatch .bool v.ty)

end Value

/-- Values of variables, by name. -/
abbrev Env := Std.ExtTreeMap String Value

end SortedRewriting
