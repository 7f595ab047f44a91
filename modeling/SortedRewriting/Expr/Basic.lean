import Std.Data.ExtTreeSet

/-!
# Expressions with dependent sorts

An `Expr` is a variable, an operator application or a sort, each a symbol over child expressions.
Four shape rules say which children a node may have (`checkShape`): the symbol is not empty; a
variable has one child, its sort; only the first child of an application may be a sort (then the
application is *elaborated*, and that child is its sort); a sort has no sort among its children.
`Expr.build` is the checked constructor of one node, `Expr.WellFormed` says that every node of an
expression passes the check.

A `Position` is the list of child indices from the root to a subterm; `subterms` lists all of
them in preorder, which is the lexicographic order of positions.
-/

namespace SortedRewriting

/-- The three kinds of expression. -/
inductive Kind where
  | var
  | app
  | sort
  deriving DecidableEq

/-- A symbol of some kind over child expressions; the shape rules are `Expr.WellFormed`. -/
inductive Expr where
  | node (kind : Kind) (sym : String) (args : List Expr)

/-- A path of child indices from the root of an expression; the empty list is the root. -/
abbrev Position := List Nat

/-- The first shape rule that a node breaks. -/
inductive ShapeError where
  | emptySymbol
  | variableArity (sym : String) (found : Nat)
  | variableSort (sym : String)
  | sortUnderApp (sym : String) (index : Nat)
  | sortUnderSort (sym : String)
  deriving DecidableEq

namespace ShapeError

/-- The text of a broken shape rule. -/
def message : ShapeError → String
  | emptySymbol => "empty symbol"
  | variableArity sym found => s!"variable '{sym}' must have exactly one sort child, found {found}"
  | variableSort sym => s!"child of variable '{sym}' is not a sort"
  | sortUnderApp sym index => s!"application '{sym}' has a sort at argument position {index}"
  | sortUnderSort sym => s!"sort '{sym}' has a sort child"

end ShapeError

namespace Expr

/-! ## Parts of a node -/

def kind : Expr → Kind
  | node k _ _ => k

def sym : Expr → String
  | node _ s _ => s

def args : Expr → List Expr
  | node _ _ as => as

def isVar (e : Expr) : Bool := e.kind = .var

def isApp (e : Expr) : Bool := e.kind = .app

def isSort (e : Expr) : Bool := e.kind = .sort

/-- The children of an application split into its own sort, if it is elaborated, and its
operands. -/
def splitSort : List Expr → Option Expr × List Expr
  | [] => (none, [])
  | a :: as => if a.isSort then (some a, as) else (none, a :: as)

/-- An application whose first child is its sort. -/
def isElaborated (e : Expr) : Bool := e.isApp && (splitSort e.args).1.isSome

/-- The sort a term carries: the child of a variable, the first child of an elaborated
application. A sort and a bare application carry none. -/
def sortOf? : Expr → Option Expr
  | node .var _ as => as.head?
  | node .app _ as => (splitSort as).1
  | node .sort _ _ => none

/-- The children without the leading sort of an elaborated application. -/
def operands : Expr → List Expr
  | node .app _ as => (splitSort as).2
  | node _ _ as => as

/-! ## Shape -/

/-- Checks the shape rules at one node: the symbol first, then the children by kind. -/
def checkShape (kind : Kind) (sym : String) (args : List Expr) : Except ShapeError Unit :=
  if sym.isEmpty then .error .emptySymbol
  else match kind, args with
    | .var, [sort] => if sort.isSort then .ok () else .error (.variableSort sym)
    | .var, _ => .error (.variableArity sym args.length)
    | .app, _ =>
      match (args.drop 1).findIdx? isSort with
      | some i => .error (.sortUnderApp sym (i + 1))
      | none => .ok ()
    | .sort, _ => if args.any isSort then .error (.sortUnderSort sym) else .ok ()

/-- The checked constructor. -/
def build (kind : Kind) (sym : String) (args : List Expr) : Except ShapeError Expr := do
  checkShape kind sym args
  return node kind sym args

/-- Every node obeys the shape rules. -/
inductive WellFormed : Expr → Prop where
  | node {kind : Kind} {sym : String} {args : List Expr} (shape : checkShape kind sym args = .ok ())
      (children : ∀ a ∈ args, WellFormed a) : WellFormed (.node kind sym args)

theorem wellFormed_node_iff {kind : Kind} {sym : String} {args : List Expr} :
    WellFormed (.node kind sym args) ↔
      checkShape kind sym args = .ok () ∧ ∀ a ∈ args, WellFormed a :=
  ⟨fun h => by cases h with | node shape children => exact ⟨shape, children⟩,
    fun h => .node h.1 h.2⟩

theorem build_eq_ok_iff {kind : Kind} {sym : String} {args : List Expr} {e : Expr} :
    build kind sym args = .ok e ↔ checkShape kind sym args = .ok () ∧ e = .node kind sym args := by
  unfold build
  cases checkShape kind sym args with
  | error err => exact ⟨nofun, fun h => nomatch h.1⟩
  | ok u => exact ⟨fun h => by cases h; exact ⟨rfl, rfl⟩, fun h => by rw [h.2]; rfl⟩

/-! ## Equality -/

mutual

/-- Equality of expressions is decided node by node. -/
def decEq : (a b : Expr) → Decidable (a = b)
  | .node k s as, .node k' s' as' =>
    if hk : k = k' then
      if hs : s = s' then
        match decEqAll as as' with
        | .isTrue h => .isTrue (by rw [hk, hs, h])
        | .isFalse h => .isFalse (fun e => h (by cases e; rfl))
      else .isFalse (fun e => hs (by cases e; rfl))
    else .isFalse (fun e => hk (by cases e; rfl))

/-- Equality of lists of expressions. -/
def decEqAll : (as bs : List Expr) → Decidable (as = bs)
  | [], [] => .isTrue rfl
  | [], _ :: _ => .isFalse (by simp)
  | _ :: _, [] => .isFalse (by simp)
  | a :: as, b :: bs =>
    match decEq a b with
    | .isFalse h => .isFalse (fun e => h (by cases e; rfl))
    | .isTrue h =>
      match decEqAll as bs with
      | .isTrue h' => .isTrue (by rw [h, h'])
      | .isFalse h' => .isFalse (fun e => h' (by cases e; rfl))

end

instance : DecidableEq Expr := decEq

/-! ## Induction -/

/-- A property that passes from the children of a node to the node holds of every expression. -/
@[elab_as_elim, induction_eliminator]
theorem induction {motive : Expr → Prop}
    (node : ∀ kind sym args, (∀ a ∈ args, motive a) → motive (.node kind sym args)) (e : Expr) :
    motive e :=
  @Expr.rec motive (fun as => ∀ a ∈ as, motive a) node
    (fun _ h => nomatch h)
    (fun _ _ head tail _ h => match h with
      | .head _ => head
      | .tail _ h => tail _ h) e

/-! ## Subterms -/

/-- The subterm at a position, if the path stays inside the expression. -/
def subterm? (e : Expr) : Position → Option Expr
  | [] => some e
  | i :: p => e.args[i]? >>= fun a => a.subterm? p

mutual

/-- Every position with its subterm, in preorder. -/
def subterms : Expr → List (Position × Expr)
  | .node k s as => ([], .node k s as) :: subtermsFrom 0 as

/-- The positions and subterms of consecutive children, the first of which has index `i`. -/
def subtermsFrom (i : Nat) : List Expr → List (Position × Expr)
  | [] => []
  | a :: as => (subterms a).map (fun (p, t) => (i :: p, t)) ++ subtermsFrom (i + 1) as

end

/-- A child with its position, seen from a parent whose children are listed from index `i` on. -/
theorem mem_subtermsFrom_iff {i : Nat} {as : List Expr} {p : Position} {t : Expr} :
    (p, t) ∈ subtermsFrom i as ↔
      ∃ j q a, p = (i + j) :: q ∧ as[j]? = some a ∧ (q, t) ∈ a.subterms := by
  induction as generalizing i with
  | nil => simp [subtermsFrom]
  | cons a as ih =>
    rw [subtermsFrom, List.mem_append, ih]
    constructor
    · rintro (h | ⟨j, q, b, rfl, hb, h⟩)
      · obtain ⟨⟨q, u⟩, hq, he⟩ := List.mem_map.1 h
        cases he
        exact ⟨0, q, a, rfl, rfl, hq⟩
      · exact ⟨j + 1, q, b, by rw [Nat.add_assoc, Nat.add_comm 1], hb, h⟩
    · rintro ⟨j, q, b, rfl, hb, h⟩
      cases j with
      | zero =>
        cases hb
        exact .inl (List.mem_map.2 ⟨(q, t), h, rfl⟩)
      | succ j => exact .inr ⟨j, q, b, by rw [Nat.add_assoc, Nat.add_comm 1], hb, h⟩

/-- The listed positions are those inside the expression, each with its subterm. -/
theorem mem_subterms_iff {e : Expr} {p : Position} {t : Expr} :
    (p, t) ∈ e.subterms ↔ e.subterm? p = some t := by
  induction e generalizing p t with
  | node kind sym args ih =>
    rw [subterms, List.mem_cons, mem_subtermsFrom_iff]
    cases p with
    | nil => simp [subterm?, eq_comm]
    | cons i q =>
      simp only [subterm?, Expr.args, Prod.mk.injEq, reduceCtorEq, false_and, false_or,
        Nat.zero_add, List.cons.injEq]
      constructor
      · rintro ⟨j, q', a, ⟨rfl, rfl⟩, ha, h⟩
        rw [ha]
        exact (ih a (List.mem_of_getElem? ha)).1 h
      · intro h
        cases ha : args[i]? with
        | none => rw [ha] at h; exact nomatch h
        | some a =>
          rw [ha] at h
          exact ⟨i, q, a, ⟨rfl, rfl⟩, ha, (ih a (List.mem_of_getElem? ha)).2 h⟩

/-- All positions, in preorder. -/
def positions (e : Expr) : List Position := e.subterms.map (·.1)

mutual

/-- The length of the longest position. -/
def depth : Expr → Nat
  | .node _ _ as => depthAll as

/-- The depth of a node with these children. -/
def depthAll : List Expr → Nat
  | [] => 0
  | a :: as => max (depth a + 1) (depthAll as)

end

/-- Every symbol that occurs in the expression. -/
def symbols (e : Expr) : Std.ExtTreeSet String :=
  .ofList (e.subterms.map (·.2.sym))

/-- The names of all variables, also of those inside sorts. -/
def varNames (e : Expr) : Std.ExtTreeSet String :=
  .ofList ((e.subterms.filter (·.2.isVar)).map (·.2.sym))

/-- The variables of `x` that `y` lacks, in name order. -/
def varsOutside (x y : Expr) : List String :=
  x.varNames.toList.filter (· ∉ y.varNames)

end Expr

end SortedRewriting
