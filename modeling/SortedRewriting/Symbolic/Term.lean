import SortedRewriting.Symbolic.Value
import Std.Data.HashSet

/-!
# Symbolic terms

A `Term` computes a value from the values of its variables. Terms are shared: one node may be an
operand of several others, and it counts once wherever that happens. To this end every node has a
`label`, its identity, which `Build` takes from a counter. Nodes are equal exactly when they are
the same node, so a term that is built once and used twice has one node, and two terms of one shape
built apart have two.

`Term.nodes` collects the nodes of a term, each once, and `calledFunctions` the functions it
applies; both follow the graph, not its unfolding.
-/

namespace SortedRewriting

/-- The three forms of a tree that a term can test for. -/
inductive Form where
  | node
  | vacant
  | error
  deriving DecidableEq

/-- Conjunction or disjunction. -/
inductive Connective where
  | all
  | any
  deriving DecidableEq

/-- An operation on integers, which wraps around at 64 bits. -/
inductive Arith where
  | add
  | mul
  deriving DecidableEq

/-- A symbolic term, each node with its label. -/
inductive Term where
  | const (label : Nat) (value : Value)
  | var (label : Nat) (name : String) (ty : Ty)
  | node (label : Nat) (tag : Term) (children : List Term) (width : Nat)
  | select (label : Nat) (arg : Term) (index : Nat)
  | tagOf (label : Nat) (arg : Term)
  | test (label : Nat) (form : Form) (arg : Term)
  | eq (label : Nat) (a b : Term)
  | join (label : Nat) (op : Connective) (args : List Term)
  | not (label : Nat) (arg : Term)
  | ite (label : Nat) (cond yes no : Term)
  | arith (label : Nat) (op : Arith) (a b : Term)
  | apply (label : Nat) (fn : String) (args : List Term) (ty : Ty)

namespace Term

def label : Term → Nat
  | const l _ | var l _ _ | node l _ _ _ | select l _ _ | tagOf l _ | test l _ _ | eq l _ _
  | join l _ _ | not l _ | ite l _ _ _ | arith l _ _ _ | apply l _ _ _ => l

/-- The type of the value, read off the structure. -/
def ty : Term → Ty
  | const _ v => v.ty
  | var _ _ ty => ty
  | node .. | select .. => .tree
  | tagOf .. | arith .. => .int
  | test .. | eq .. | join .. | not .. => .bool
  | ite _ _ yes _ => yes.ty
  | apply _ _ _ ty => ty

/-- The operands, in order. -/
def operands : Term → List Term
  | const .. | var .. => []
  | node _ tag children _ => tag :: children
  | select _ arg _ | tagOf _ arg | test _ _ arg | not _ arg => [arg]
  | eq _ a b | arith _ _ a b => [a, b]
  | join _ _ args | apply _ _ args _ => args
  | ite _ cond yes no => [cond, yes, no]

/-! ## Identity of nodes -/

mutual

/-- Whether two terms are the same node; labels are compared before operands. -/
def same : Term → Term → Bool
  | .const l v, .const l' v' => l == l' && v == v'
  | .var l s ty, .var l' s' ty' => l == l' && s == s' && ty == ty'
  | .node l t cs w, .node l' t' cs' w' => l == l' && w == w' && same t t' && sameAll cs cs'
  | .select l a i, .select l' a' i' => l == l' && i == i' && same a a'
  | .tagOf l a, .tagOf l' a' => l == l' && same a a'
  | .test l f a, .test l' f' a' => l == l' && f == f' && same a a'
  | .eq l a b, .eq l' a' b' => l == l' && same a a' && same b b'
  | .join l op as, .join l' op' as' => l == l' && op == op' && sameAll as as'
  | .not l a, .not l' a' => l == l' && same a a'
  | .ite l c y n, .ite l' c' y' n' => l == l' && same c c' && same y y' && same n n'
  | .arith l op a b, .arith l' op' a' b' => l == l' && op == op' && same a a' && same b b'
  | .apply l f as ty, .apply l' f' as' ty' => l == l' && f == f' && ty == ty' && sameAll as as'
  | _, _ => false

/-- Whether two lists of terms hold the same nodes. -/
def sameAll : List Term → List Term → Bool
  | [], [] => true
  | a :: as, b :: bs => same a b && sameAll as bs
  | _, _ => false

end

mutual

theorem same_iff : (a b : Term) → (same a b = true ↔ a = b)
  | .const _ _, b => by cases b <;> simp [same]
  | .var _ _ _, b => by cases b <;> simp [same, and_assoc]
  | .node _ t cs _, b => by
    cases b <;> simp only [same, reduceCtorEq, Bool.false_eq_true]
    rename_i t' cs' _
    grind [same_iff t t', sameAll_iff cs cs']
  | .select _ a _, b => by
    cases b <;> simp only [same, reduceCtorEq, Bool.false_eq_true]
    rename_i a' _
    grind [same_iff a a']
  | .tagOf _ a, b => by
    cases b <;> simp only [same, reduceCtorEq, Bool.false_eq_true]
    rename_i a'
    grind [same_iff a a']
  | .test _ _ a, b => by
    cases b <;> simp only [same, reduceCtorEq, Bool.false_eq_true]
    rename_i a'
    grind [same_iff a a']
  | .eq _ x y, b => by
    cases b <;> simp only [same, reduceCtorEq, Bool.false_eq_true]
    rename_i x' y'
    grind [same_iff x x', same_iff y y']
  | .join _ _ as, b => by
    cases b <;> simp only [same, reduceCtorEq, Bool.false_eq_true]
    rename_i as'
    grind [sameAll_iff as as']
  | .not _ a, b => by
    cases b <;> simp only [same, reduceCtorEq, Bool.false_eq_true]
    rename_i a'
    grind [same_iff a a']
  | .ite _ c y n, b => by
    cases b <;> simp only [same, reduceCtorEq, Bool.false_eq_true]
    rename_i c' y' n'
    grind [same_iff c c', same_iff y y', same_iff n n']
  | .arith _ _ x y, b => by
    cases b <;> simp only [same, reduceCtorEq, Bool.false_eq_true]
    rename_i x' y'
    grind [same_iff x x', same_iff y y']
  | .apply _ _ as _, b => by
    cases b <;> simp only [same, reduceCtorEq, Bool.false_eq_true]
    rename_i as' _
    grind [sameAll_iff as as']

theorem sameAll_iff : (as bs : List Term) → (sameAll as bs = true ↔ as = bs)
  | [], [] => by simp [sameAll]
  | [], _ :: _ => by simp [sameAll]
  | _ :: _, [] => by simp [sameAll]
  | a :: as, b :: bs => by simp [sameAll, same_iff a b, sameAll_iff as bs]

end

/-- A node met again is recognised by its address before anything is compared. -/
instance : DecidableEq Term := fun a b =>
  withPtrEqDecEq a b fun _ => decidable_of_iff (same a b = true) (same_iff a b)

instance : Hashable Term := ⟨fun t => hash t.label⟩

/-! ## The graph of a term -/

/-- The nodes met so far, in the order of the visits. -/
structure Walk where
  seen : Std.HashSet Term
  visited : Array Term

/-- Records a visit. -/
def Walk.visit (w : Walk) (t : Term) : Walk := ⟨w.seen.insert t, w.visited.push t⟩

mutual

/-- Walks through a term, a node before its operands and the last operand first; a node met before
is passed over. -/
def walk (t : Term) (w : Walk) : Walk :=
  if w.seen.contains t then w
  else match t with
    | .const _ _ => w.visit t
    | .var _ _ _ => w.visit t
    | .node _ tag cs _ => walk tag (walkAll cs (w.visit t))
    | .select _ a _ => walk a (w.visit t)
    | .tagOf _ a => walk a (w.visit t)
    | .test _ _ a => walk a (w.visit t)
    | .eq _ a b => walk a (walk b (w.visit t))
    | .join _ _ as => walkAll as (w.visit t)
    | .not _ a => walk a (w.visit t)
    | .ite _ c y n => walk c (walk y (walk n (w.visit t)))
    | .arith _ _ a b => walk a (walk b (w.visit t))
    | .apply _ _ as _ => walkAll as (w.visit t)

/-- Walks through a list of terms, the last one first. -/
def walkAll : List Term → Walk → Walk
  | [], w => w
  | a :: as, w => walk a (walkAll as w)

end

/-- The nodes of a term, each once. -/
def nodes (t : Term) : List Term := (t.walk ⟨∅, #[]⟩).visited.toList

/-- The number of nodes. -/
def dagSize (t : Term) : Nat := t.nodes.length

/-- The function that a node applies. -/
def function? : Term → Option String
  | apply _ f _ _ => some f
  | _ => none

/-- The functions that a term applies, each once, in the order of the walk. -/
def calledFunctions (t : Term) : List String := (t.nodes.filterMap function?).eraseDups

end Term

/-! ## Building terms -/

/-- A computation that takes labels for new nodes from a counter. -/
abbrev Build := StateM Nat

namespace Build

/-- A label that no node has yet. -/
def fresh : Build Nat := modifyGet fun n => (n, n + 1)

/-- What is built when counting starts from zero. -/
def result {α : Type} (x : Build α) : α := (x.run 0).1

def const (v : Value) : Build Term := return .const (← fresh) v

def tree (x : Tree) : Build Term := const (.tree x)

def int (n : Int64) : Build Term := const (.int n)

def bool (b : Bool) : Build Term := const (.bool b)

def path (p : Path) : Build Term := const (.path p)

def rule (r : RuleTag) : Build Term := const (.rule r)

def var (name : String) (ty : Ty) : Build Term := return .var (← fresh) name ty

def node (tag : Term) (children : List Term) (width : Nat) : Build Term :=
  return .node (← fresh) tag children width

def select (arg : Term) (index : Nat) : Build Term := return .select (← fresh) arg index

/-- Repeated selection; along the empty path, the term itself. -/
def selectPath (arg : Term) : List Nat → Build Term
  | [] => return arg
  | i :: p => do selectPath (← select arg i) p

def tagOf (arg : Term) : Build Term := return .tagOf (← fresh) arg

def test (form : Form) (arg : Term) : Build Term := return .test (← fresh) form arg

def eq (a b : Term) : Build Term := return .eq (← fresh) a b

/-- A conjunction or disjunction of any number of terms: of none the constant, of one the term. -/
def join (op : Connective) : List Term → Build Term
  | [] => bool (op == .all)
  | [a] => return a
  | args => return .join (← fresh) op args

def all (args : List Term) : Build Term := join .all args

def any (args : List Term) : Build Term := join .any args

def not (arg : Term) : Build Term := return .not (← fresh) arg

def ite (cond yes no : Term) : Build Term := return .ite (← fresh) cond yes no

/-- The value of the first branch whose condition holds, or a default. -/
def iteChain : List (Term × Term) → Term → Build Term
  | [], default => return default
  | (cond, value) :: branches, default => do ite cond value (← iteChain branches default)

def add (a b : Term) : Build Term := return .arith (← fresh) .add a b

def mul (a b : Term) : Build Term := return .arith (← fresh) .mul a b

def apply (fn : String) (args : List Term) (ty : Ty) : Build Term :=
  return .apply (← fresh) fn args ty

end Build

end SortedRewriting
