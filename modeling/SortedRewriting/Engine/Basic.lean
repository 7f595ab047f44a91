import SortedRewriting.Engine.Construction
import SortedRewriting.Engine.Pattern
import SortedRewriting.Symbolic.Evaluation
import SortedRewriting.Tree.Bounds

/-!
# The rewrite engine

An `Engine` holds an elaborated theory and its rewriting as named functions on encoded trees:

* `getAt (x, p)` is the subtree at a path, `replaceAt (x, y, p)` puts another in its place;
* `pat_R (x)` tests one side of a rule, `rterm_R (x, step)` produces the other side;
* `rewriteTop (x, r, step)` applies a rule at the root, `rewrite (x, r, p, step)` at a path.

All are total: a path outside the bounds, a failed match and an operand that is no node give
`error`, which every later step passes on. `Engine.compile` builds them for all paths up to a depth.
-/

namespace SortedRewriting

/-! ## Functions on trees -/

namespace Engine

def getAtName : String := "getAt"

def replaceAtName : String := "replaceAt"

def rewriteTopName : String := "rewriteTop"

def rewriteName : String := "rewrite"

/-- The name of a rule's pattern test. -/
def patternName (tag : RuleTag) : String := "pat_" ++ tag.text

/-- The name of the function that produces a rule's other side. -/
def resultName (tag : RuleTag) : String := "rterm_" ++ tag.text

/-- A choice by path: a branch for each path below the root, the value at the root, and `error` for
all other paths. -/
def pathChoice (b : Bounds) (p root : Term) (branch : Path → Build Term) : Build Term := do
  let branches ← b.layers.flatten.mapM fun path => do
    let cond ← Build.eq p (← Build.path path)
    return (cond, ← branch path)
  let atRoot ← Build.eq p (← Build.path [])
  Build.iteChain branches (← Build.ite atRoot root (← Build.tree .error))

/-- `x` with `y` at a path: every ancestor keeps its tag and its other children. -/
def rebuildAlong (width : Nat) (y : Term) : Path → Term → Build Term
  | [], _ => return y
  | i :: p, x => do
    let children ← (List.range width).mapM fun slot => do
      let child ← Build.select x slot
      if slot = i then rebuildAlong width y p child else return child
    Build.node (← Build.tagOf x) children width

/-- The function that selects a subtree. -/
def getAtDef (b : Bounds) : Build FunDef := do
  let x ← Build.var "x" .tree
  let p ← Build.var "p" .path
  let body ← pathChoice b p x (Build.selectPath x)
  return { name := getAtName, params := [("x", .tree), ("p", .path)], result := .tree, body }

/-- The function that replaces a subtree. -/
def replaceAtDef (b : Bounds) : Build FunDef := do
  let x ← Build.var "x" .tree
  let y ← Build.var "y" .tree
  let p ← Build.var "p" .path
  let body ← pathChoice b p y (rebuildAlong b.width y · x)
  return {
    name := replaceAtName, params := [("x", .tree), ("y", .tree), ("p", .path)], result := .tree,
    body }

/-- The two functions of a rule in one direction. -/
structure RuleFunctions where
  tag : RuleTag
  pattern : FunDef
  result : FunDef

/-- The functions of a rule: its pattern test and its result. -/
def ruleFunctions (book : CodeBook) (width : Nat) (x step : Term) (tag : RuleTag) (rule : Rule) :
    Build RuleFunctions := do
  let lhs := rule.matched tag.direction
  let test ← patternTest book width x lhs
  let result ← construct book width (rule.produced tag.direction) (some ⟨lhs, x⟩) step
  return {
    tag
    pattern := { name := patternName tag, params := [("x", .tree)], result := .bool, body := test }
    result := {
      name := resultName tag, params := [("x", .tree), ("step", .int)], result := .tree,
      body := result } }

/-- The case of `rewriteTop` for one rule. -/
def ruleBranch (x r step : Term) (f : RuleFunctions) : Build (Term × Term) := do
  let chosen ← Build.eq r (← Build.rule f.tag)
  let cond ← Build.all [chosen, ← f.pattern.call [x]]
  return (cond, ← f.result.call [x, step])

/-- The function that applies a rule at the root. -/
def rewriteTopDef (x r step : Term) (rules : List RuleFunctions) : Build FunDef := do
  let branches ← rules.mapM (ruleBranch x r step)
  let chain ← Build.iteChain branches (← Build.tree .error)
  let body ← Build.ite (← Build.test .node x) chain (← Build.tree .error)
  return {
    name := rewriteTopName, params := [("x", .tree), ("r", .rule), ("step", .int)], result := .tree,
    body }

/-- The function that applies a rule at a path. -/
def rewriteDef : Build FunDef := do
  let x ← Build.var "x" .tree
  let r ← Build.var "r" .rule
  let p ← Build.var "p" .path
  let step ← Build.var "step" .int
  let sub ← Build.apply getAtName [x, p] .tree
  let rewritten ← Build.apply rewriteTopName [sub, r, step] .tree
  let replaced ← Build.apply replaceAtName [x, rewritten, p] .tree
  let body ← Build.ite (← Build.test .node x) replaced (← Build.tree .error)
  return {
    name := rewriteName, params := [("x", .tree), ("r", .rule), ("p", .path), ("step", .int)],
    result := .tree, body }

/-- The rules of a theory in both directions, by tag. -/
def taggedRules (rules : List Rule) (b : Bounds) : List (RuleTag × Rule) :=
  b.ruleTags.filterMap fun tag => rules[tag.rule]?.map (tag, ·)

/-- All functions of a theory, each after those it calls. -/
def definitions (rules : List Rule) (book : CodeBook) (b : Bounds) : Build (List FunDef) := do
  let getAt ← getAtDef b
  let replaceAt ← replaceAtDef b
  let x ← Build.var "x" .tree
  let step ← Build.var "step" .int
  let r ← Build.var "r" .rule
  let rules ← (taggedRules rules b).mapM fun (tag, rule) => ruleFunctions book b.width x step tag rule
  let rewriteTop ← rewriteTopDef x r step rules
  let rewrite ← rewriteDef
  return getAt :: replaceAt :: rules.flatMap (fun f => [f.pattern, f.result])
    ++ [rewriteTop, rewrite]

end Engine

/-! ## The engine -/

/-- An elaborated theory with its rewrite functions. -/
structure Engine where
  theory : Theory
  book : CodeBook
  bounds : Bounds
  functions : FunctionTable

namespace Engine

/-- Elaborates a theory and builds its functions, for paths up to a depth. -/
def compile (theory : Theory) (depth : Nat) : Except ElaborationError Engine := do
  let theory ← theory.elaborate
  let book := CodeBook.ofTheory theory
  let bounds : Bounds := ⟨theory.maxArity, depth, theory.rules.length⟩
  let functions := FunctionTable.empty.insertAll (definitions theory.rules book bounds).result
  return { theory, book, bounds, functions }

/-- Records the symbols of an expression, for decoding. -/
def register (e : Engine) (expr : Expr) : Engine := { e with book := e.book.register expr }

/-- The rule of a tag. -/
def rule? (e : Engine) (tag : RuleTag) : Option Rule := e.theory.rules[tag.rule]?

/-- The tree of an expression that is elaborated already. -/
def treeOf (e : Engine) (expr : Expr) : Tree := e.book.encode e.bounds.width expr

/-- Elaborates and encodes an expression. -/
def encode (e : Engine) (expr : Expr) : Except ElaborationError Tree := do
  let expr ← e.theory.elaborateExpr expr
  return e.treeOf expr

/-- Calls a function whose result is a tree. -/
def callTree (e : Engine) (name : String) (args : List Value) : Except EvalError Tree := do
  (← e.functions.call name args).asTree

/-- The subtree at a path. -/
def getAt (e : Engine) (x : Tree) (p : Path) : Except EvalError Tree :=
  e.callTree getAtName [.tree x, .path p]

/-- The tree `x` with `y` at a path. -/
def replaceAt (e : Engine) (x y : Tree) (p : Path) : Except EvalError Tree :=
  e.callTree replaceAtName [.tree x, .tree y, .path p]

/-- Whether a tree matches the side of a rule; no tree matches an unknown rule. -/
def matchesRule (e : Engine) (x : Tree) (tag : RuleTag) : Except EvalError Bool :=
  if e.functions.contains (patternName tag) then do
    (← e.functions.call (patternName tag) [.tree x]).asBool
  else .ok false

/-- The result of a rule at the root. -/
def rewriteTop (e : Engine) (x : Tree) (tag : RuleTag) (step : Int64) : Except EvalError Tree :=
  e.callTree rewriteTopName [.tree x, .rule tag, .int step]

/-- The result of a rule at a path. -/
def rewrite (e : Engine) (x : Tree) (tag : RuleTag) (p : Path) (step : Int64) :
    Except EvalError Tree :=
  e.callTree rewriteName [.tree x, .rule tag, .path p, .int step]

end Engine

end SortedRewriting
