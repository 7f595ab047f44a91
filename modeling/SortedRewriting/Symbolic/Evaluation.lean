import SortedRewriting.Symbolic.Function
import Std.Data.HashMap

/-!
# Evaluation

`Term.valueIn` gives a term its value in an environment: `ite`, conjunction and disjunction evaluate
no more operands than they need, all others evaluate their operands from left to right, and a
function is called with the values of its arguments. `Term.evalIn` computes the same with a memo of
the nodes it has met, so that the work follows the graph of a term and not its unfolding; a memo
belongs to one body, and each call starts a new one.

A call limit bounds how deeply calls nest. It exceeds the size of the table, so it is never met
where no function calls itself.
-/

namespace SortedRewriting

/-- What a function does with the values of its arguments. -/
abbrev Caller := String → List Value → Except EvalError Value

/-! ## Operations on values -/

namespace Value

/-- Equality of two values of one type. -/
def equal (a b : Value) : Except EvalError Value :=
  if a.ty = b.ty then .ok (.bool (a = b)) else .error (.mismatch a.ty b.ty)

/-- The child of a tree in a slot. -/
def child (i : Nat) (v : Value) : Except EvalError Value := do
  let x ← v.asTree
  return .tree (x.child i)

/-- The tag of a tree. -/
def tagOf (v : Value) : Except EvalError Value := do
  let x ← v.asTree
  return .int x.tag

/-- Whether a tree has a form. -/
def hasForm (form : Form) (v : Value) : Except EvalError Value := do
  let x ← v.asTree
  return .bool (match form with
    | .node => x.isNode
    | .vacant => x.isVacant
    | .error => x.isError)

/-- Negation. -/
def negated (v : Value) : Except EvalError Value := do
  let b ← v.asBool
  return .bool !b

end Value

/-- The operation on 64-bit integers. -/
def Arith.eval : Arith → Int64 → Int64 → Int64
  | add, m, n => m + n
  | mul, m, n => m * n

/-- The truth value of an operand that decides a connective at once. -/
def Connective.decisive : Connective → Bool
  | all => false
  | any => true

namespace Term

/-- The value of a variable, which has to have the variable's type. -/
def lookUp (env : Env) (name : String) (ty : Ty) : Except EvalError Value :=
  match env[name]? with
  | none => .error (.unboundVariable name)
  | some v => if v.ty = ty then .ok v else .error (.mismatch ty v.ty)

/-! ## The value of a term -/

mutual

/-- The value of a term, node by node. -/
def valueIn (call : Caller) (env : Env) : Term → Except EvalError Value
  | .const _ v => .ok v
  | .var _ s ty => lookUp env s ty
  | .node _ t cs width => do
    let tag ← (← valueIn call env t).asInt
    let children ← treesIn call env cs
    return .tree (.build tag children width)
  | .select _ a i => do (← valueIn call env a).child i
  | .tagOf _ a => do (← valueIn call env a).tagOf
  | .test _ form a => do (← valueIn call env a).hasForm form
  | .eq _ a b => do
    let v ← valueIn call env a
    let w ← valueIn call env b
    v.equal w
  | .join _ op as => decideIn call env op as
  | .not _ a => do (← valueIn call env a).negated
  | .ite _ c y n => do
    if ← (← valueIn call env c).asBool then valueIn call env y else valueIn call env n
  | .arith _ op a b => do
    let m ← (← valueIn call env a).asInt
    let n ← (← valueIn call env b).asInt
    return .int (op.eval m n)
  | .apply _ f as _ => do call f (← valuesIn call env as)

/-- The values of a list of terms. -/
def valuesIn (call : Caller) (env : Env) : List Term → Except EvalError (List Value)
  | [] => .ok []
  | a :: as => do
    let v ← valueIn call env a
    let vs ← valuesIn call env as
    return v :: vs

/-- The values of a list of terms, each of which has to be a tree. -/
def treesIn (call : Caller) (env : Env) : List Term → Except EvalError (List Tree)
  | [] => .ok []
  | a :: as => do
    let x ← (← valueIn call env a).asTree
    let xs ← treesIn call env as
    return x :: xs

/-- The value of a connective: operands are evaluated up to the first decisive one. -/
def decideIn (call : Caller) (env : Env) (op : Connective) : List Term → Except EvalError Value
  | [] => .ok (.bool !op.decisive)
  | a :: as => do
    let b ← (← valueIn call env a).asBool
    if b = op.decisive then return .bool b else decideIn call env op as

end

attribute [simp] valueIn valuesIn treesIn decideIn

/-! ## Evaluation with a memo -/

/-- The values of nodes that have been evaluated. -/
abbrev Memo := Std.HashMap Term Value

/-- An evaluation that looks up and records values of nodes. -/
abbrev Frame := StateT Memo (Except EvalError)

/-- Records the value of a node. -/
def record (t : Term) (eval : Frame Value) : Frame Value := do
  let v ← eval
  modify (·.insert t v)
  return v

mutual

/-- The value of a term, from the memo if it is there. -/
def evalIn (call : Caller) (env : Env) (t : Term) : Frame Value := do
  match (← get)[t]? with
  | some v => return v
  | none =>
    record t <| match t with
      | .const _ v => return v
      | .var _ s ty => lookUp env s ty
      | .node _ tag cs width => do
        let tag ← (← evalIn call env tag).asInt
        let children ← evalTrees call env cs
        return .tree (.build tag children width)
      | .select _ a i => do (← evalIn call env a).child i
      | .tagOf _ a => do (← evalIn call env a).tagOf
      | .test _ form a => do (← evalIn call env a).hasForm form
      | .eq _ a b => do
        let v ← evalIn call env a
        let w ← evalIn call env b
        v.equal w
      | .join _ op as => evalJoin call env op as
      | .not _ a => do (← evalIn call env a).negated
      | .ite _ c y n => do
        if ← (← evalIn call env c).asBool then evalIn call env y else evalIn call env n
      | .arith _ op a b => do
        let m ← (← evalIn call env a).asInt
        let n ← (← evalIn call env b).asInt
        return .int (op.eval m n)
      | .apply _ f as _ => do call f (← evalValues call env as)

/-- The values of a list of terms. -/
def evalValues (call : Caller) (env : Env) : List Term → Frame (List Value)
  | [] => return []
  | a :: as => do
    let v ← evalIn call env a
    let vs ← evalValues call env as
    return v :: vs

/-- The values of a list of terms, each of which has to be a tree. -/
def evalTrees (call : Caller) (env : Env) : List Term → Frame (List Tree)
  | [] => return []
  | a :: as => do
    let x ← (← evalIn call env a).asTree
    let xs ← evalTrees call env as
    return x :: xs

/-- The value of a connective: operands are evaluated up to the first decisive one. -/
def evalJoin (call : Caller) (env : Env) (op : Connective) : List Term → Frame Value
  | [] => return .bool !op.decisive
  | a :: as => do
    let b ← (← evalIn call env a).asBool
    if b = op.decisive then return .bool b else evalJoin call env op as

end

end Term

/-! ## Calls -/

namespace FunctionTable

/-- Calls a function of the table, with calls nested up to a limit. -/
def callWithin (t : FunctionTable) : Nat → Caller
  | 0, _, _ => .error .callDepth
  | n + 1, name, args =>
    match t.find? name with
    | none => .error (.unknownFunction name)
    | some f => do
      let env ← f.bindArgs args
      (f.body.evalIn (callWithin t n) env).run' ∅

/-- How deeply calls may nest. -/
def callLimit (t : FunctionTable) : Nat := t.size + 1000000

/-- Calls a function of the table. -/
def call (t : FunctionTable) : Caller := t.callWithin t.callLimit

/-- The value of a term over the functions of the table. -/
def eval (t : FunctionTable) (env : Env) (e : Term) : Except EvalError Value :=
  (e.evalIn t.call env).run' ∅

end FunctionTable

end SortedRewriting
