import SortedRewriting.Expr.Matching

/-!
# Theories

A `Theory` declares sort constructors and operators by symbol and states bidirectional rules.
`Theory.declare` checks the declarations in order, sorts first, and refuses the first that is
empty, malformed, of the wrong kind or repeated. A theory is *raw* until elaboration puts the
inferred sorts into all its patterns.
-/

namespace SortedRewriting

/-- A sort constructor: its print pattern and its parameters, which are variables. -/
structure SortDecl where
  pattern : String
  args : List Expr
  description : String
  deriving DecidableEq

/-- An operator: its print pattern, its result sort and its argument patterns. -/
structure OpDecl where
  pattern : String
  sort : Expr
  args : List Expr
  description : String
  deriving DecidableEq

/-- A rule that holds in both directions. -/
structure Rule where
  name : String
  description : String
  left : Expr
  right : Expr
  deriving DecidableEq

/-- Which way a rule is applied: from left to right, or from right to left. -/
inductive Direction where
  | forward
  | reverse
  deriving DecidableEq, Hashable

namespace Rule

/-- The side that is matched. -/
def matched (r : Rule) : Direction → Expr
  | .forward => r.left
  | .reverse => r.right

/-- The side that is produced. -/
def produced (r : Rule) : Direction → Expr
  | .forward => r.right
  | .reverse => r.left

end Rule

/-- The part of an operator declaration that has the wrong kind. -/
inductive PatternFault where
  | resultNotSort
  | argumentIsSort
  deriving DecidableEq

/-- Why a list of declarations is refused. -/
inductive DeclarationError where
  | malformed (error : ShapeError)
  | repeated (sym : String)
  | kindClash (sym : String)
  | pattern (sym : String) (fault : PatternFault)
  deriving DecidableEq

/-- The text of a refused declaration. -/
def DeclarationError.message : DeclarationError → String
  | malformed error => error.message
  | repeated sym => s!"symbol '{sym}' declared more than once"
  | kindClash sym => s!"symbol '{sym}' declared as both sort and operator"
  | pattern sym .resultNotSort => s!"declaration of '{sym}': result is not a sort"
  | pattern sym .argumentIsSort => s!"declaration of '{sym}': argument pattern is a sort"

/-- Sort and operator declarations by symbol, with rules. -/
structure Theory where
  name : String
  sorts : Std.ExtTreeMap String SortDecl
  ops : Std.ExtTreeMap String OpDecl
  rules : List Rule
  elaborated : Bool
  deriving DecidableEq

namespace Theory

/-! ## Declaring -/

/-- Adds a sort constructor: its parameters have to form a sort, and its symbol has to be new. -/
def addSort (sorts : Std.ExtTreeMap String SortDecl) (sym : String) (decl : SortDecl) :
    Except DeclarationError (Std.ExtTreeMap String SortDecl) :=
  match Expr.checkShape .sort sym decl.args with
  | .error e => .error (.malformed e)
  | .ok _ => if sorts.contains sym then .error (.repeated sym) else .ok (sorts.insert sym decl)

/-- Adds an operator: its symbol is no sort and new, its result is a sort, its arguments are
terms. -/
def addOp (sorts : Std.ExtTreeMap String SortDecl) (ops : Std.ExtTreeMap String OpDecl)
    (sym : String) (decl : OpDecl) : Except DeclarationError (Std.ExtTreeMap String OpDecl) :=
  if sym.isEmpty then .error (.malformed .emptySymbol)
  else if sorts.contains sym then .error (.kindClash sym)
  else if !decl.sort.isSort then .error (.pattern sym .resultNotSort)
  else if decl.args.any Expr.isSort then .error (.pattern sym .argumentIsSort)
  else if ops.contains sym then .error (.repeated sym)
  else .ok (ops.insert sym decl)

/-- The raw theory of these declarations. -/
def declare (name : String) (sorts : List (String × SortDecl)) (ops : List (String × OpDecl))
    (rules : List Rule) : Except DeclarationError Theory := do
  let sorts ← sorts.foldlM (fun m (sym, decl) => addSort m sym decl) ∅
  let ops ← ops.foldlM (fun m (sym, decl) => addOp sorts m sym decl) ∅
  return { name, sorts, ops, rules, elaborated := false }

/-! ## Symbols -/

/-- The largest number of arguments in a declaration, at least one. -/
def maxArity (t : Theory) : Nat :=
  (t.sorts.toList.map (·.2.args.length) ++ t.ops.toList.map (·.2.args.length)).foldl max 1

/-- Every expression in a declaration or rule. -/
def patterns (t : Theory) : List Expr :=
  t.sorts.toList.flatMap (·.2.args) ++ t.ops.toList.flatMap (fun (_, d) => d.sort :: d.args)
    ++ t.rules.flatMap fun r => [r.left, r.right]

/-- Every symbol that the theory declares or mentions. -/
def symbols (t : Theory) : Std.ExtTreeSet String :=
  .ofList (t.sorts.keys ++ t.ops.keys ++ t.patterns.flatMap (·.symbols.toList))

end Theory

end SortedRewriting
