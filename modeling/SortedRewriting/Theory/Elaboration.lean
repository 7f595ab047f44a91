import SortedRewriting.Theory.Order

/-!
# Elaboration

The sort of an application is inferred from its arguments: each is matched against the declared
argument pattern, the bindings are merged, and the declared result sort is instantiated
(`Theory.infer`). `Theory.elaborateExpr` puts the inferred sort in front of the operands of every
application, replacing a sort that is there already. `Theory.elaborate` does so in all
declarations and rules, operators in dependency order.
-/

namespace SortedRewriting

/-- Why a term has no sort. -/
inductive ElaborationError where
  | unknownOperator (sym : String)
  | arity (sym : String) (expected found : Nat)
  | argument (sym : String) (index : Nat)
  | conflict (sym : String) (index : Nat)
  | cycle (syms : List String)
  | malformed (error : ShapeError)
  deriving DecidableEq

namespace ElaborationError

/-- The text of a failed elaboration. -/
def message : ElaborationError → String
  | unknownOperator sym => s!"unknown operator '{sym}'"
  | arity sym expected found => s!"operator '{sym}' expects {expected} arguments, got {found}"
  | argument sym index => s!"argument {index} of '{sym}' does not match its declared sort"
  | conflict sym index => s!"argument {index} of '{sym}' conflicts with earlier bindings"
  | cycle syms => "cyclic operator declarations: " ++ String.intercalate ", " syms
  | malformed error => "ill-formed elaboration: " ++ error.message

/-- The text of the error that lies under this one. -/
def cause? : ElaborationError → Option String
  | malformed error => some error.message
  | _ => none

/-- A shape error met during elaboration. -/
def ofShape {α : Type} : Except ShapeError α → Except ElaborationError α
  | .ok a => .ok a
  | .error e => .error (.malformed e)

end ElaborationError

namespace Theory

/-! ## Inference -/

/-- Matches arguments against their patterns, on top of the bindings of the arguments before
them; `index` is the number of the first. -/
def matchArgs (sym : String) (index : Nat) (d : Bindings) :
    List Expr → List Expr → Except ElaborationError Bindings
  | p :: ps, a :: as =>
    let m := p.matchWith a
    if m.isFailed then .error (.argument sym index)
    else if (d.merge m).isFailed then .error (.conflict sym index)
    else matchArgs sym (index + 1) (d.merge m) ps as
  | _, _ => .ok d

/-- The sort of an application to elaborated arguments. -/
def infer (t : Theory) (sym : String) (args : List Expr) : Except ElaborationError Expr :=
  match t.ops[sym]? with
  | none => .error (.unknownOperator sym)
  | some decl =>
    if decl.args.length ≠ args.length then .error (.arity sym decl.args.length args.length)
    else do
      let d ← matchArgs sym 0 .empty decl.args args
      return decl.sort.subst d

/-! ## Expressions -/

mutual

/-- Elaborates an expression, children first. -/
def elaborateExpr (t : Theory) : Expr → Except ElaborationError Expr
  | .node .app s as => do
    let operands ← elaborateOperands t as
    let sort ← t.infer s operands
    ElaborationError.ofShape (Expr.build .app s (sort :: operands))
  | .node k s as => do
    let as ← elaborateAll t as
    ElaborationError.ofShape (Expr.build k s as)

/-- Elaborates a list of expressions from left to right. -/
def elaborateAll (t : Theory) : List Expr → Except ElaborationError (List Expr)
  | [] => .ok []
  | a :: as => do
    let a ← elaborateExpr t a
    let as ← elaborateAll t as
    return a :: as

/-- Elaborates the operands among the children of an application. -/
def elaborateOperands (t : Theory) : List Expr → Except ElaborationError (List Expr)
  | [] => .ok []
  | a :: as =>
    if a.isSort then elaborateAll t as
    else do
      let a ← elaborateExpr t a
      let as ← elaborateAll t as
      return a :: as

end

/-! ## Theories -/

/-- Elaborates the patterns of an operator. -/
def elaborateOp (t : Theory) (decl : OpDecl) : Except ElaborationError OpDecl := do
  let sort ← t.elaborateExpr decl.sort
  let args ← t.elaborateAll decl.args
  return { decl with sort, args }

/-- Elaborates the parameters of a sort constructor. -/
def elaborateSort (t : Theory) (decl : SortDecl) : Except ElaborationError SortDecl := do
  let args ← t.elaborateAll decl.args
  return { decl with args }

/-- Elaborates both sides of a rule. -/
def elaborateRule (t : Theory) (r : Rule) : Except ElaborationError Rule := do
  let left ← t.elaborateExpr r.left
  let right ← t.elaborateExpr r.right
  return { r with left, right }

/-- Replaces an operator of the theory by its elaboration in a partly elaborated theory. -/
def elaborateNext (t work : Theory) (sym : String) : Except ElaborationError Theory :=
  match t.ops[sym]? with
  | none => .ok work
  | some decl => do
    let decl ← work.elaborateOp decl
    return { work with ops := work.ops.insert sym decl }

/-- Elaborates every declaration and rule; an elaborated theory stays as it is. -/
def elaborate (t : Theory) : Except ElaborationError Theory :=
  if t.elaborated then .ok t
  else match t.operatorOrder with
  | .error syms => .error (.cycle syms)
  | .ok order => do
    let work ← order.foldlM (elaborateNext t) t
    let sorts ← t.sorts.toList.mapM fun (sym, decl) => do
      let decl ← work.elaborateSort decl
      return (sym, decl)
    let rules ← t.rules.mapM work.elaborateRule
    return { work with sorts := .ofList sorts, rules, elaborated := true }

end Theory

end SortedRewriting
