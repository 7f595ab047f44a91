import SortedRewriting.Expr.Bindings

/-!
# Matching and substitution

`Expr.matchWith` matches a pattern against a concrete expression: a variable of the pattern takes
any subterm that carries a sort, and its own sort is matched against that sort; all other nodes
agree in kind, symbol and number of children. `Expr.subst` puts the bound expressions in the place
of the variables, and `Expr.erase` removes the sorts that elaboration added.
-/

namespace SortedRewriting.Expr

mutual

/-- Matches a pattern against an expression. -/
def matchWith : Expr → Expr → Bindings
  | .node .var s as, e =>
    match e.sortOf? with
    | none => .failed
    | some sort => (Bindings.empty.bind s e).merge (matchSort as sort)
  | .node k s as, .node k' s' as' =>
    if k = k' ∧ s = s' ∧ as.length = as'.length then matchAll .empty as as' else .failed

/-- Matches the sort of a pattern variable. -/
def matchSort : List Expr → Expr → Bindings
  | [], _ => .empty
  | a :: _, sort => matchWith a sort

/-- Matches children from left to right on top of earlier bindings, up to the first failure. -/
def matchAll (d : Bindings) : List Expr → List Expr → Bindings
  | a :: as, b :: bs =>
    let d' := d.merge (matchWith a b)
    if d'.isFailed then d' else matchAll d' as bs
  | _, _ => d

end

mutual

/-- Replaces every bound variable; an unbound one keeps its name, and its sort is substituted. -/
def subst (d : Bindings) : Expr → Expr
  | .node .var s as =>
    match d.get? s with
    | some bound => bound
    | none => .node .var s (substAll d as)
  | .node k s as => .node k s (substAll d as)

/-- Substitutes in each expression of a list. -/
def substAll (d : Bindings) : List Expr → List Expr
  | [] => []
  | a :: as => subst d a :: substAll d as

end

@[simp] theorem substAll_eq_map (d : Bindings) (as : List Expr) :
    substAll d as = as.map (subst d) := by
  induction as with
  | nil => rfl
  | cons a as ih => rw [substAll, ih, List.map_cons]

mutual

/-- Drops the sort children of every application. -/
def erase : Expr → Expr
  | .node .app s as => .node .app s (eraseTerms as)
  | .node k s as => .node k s (eraseAll as)

/-- Erases in each expression of a list. -/
def eraseAll : List Expr → List Expr
  | [] => []
  | a :: as => erase a :: eraseAll as

/-- Erases in each expression of a list that is not a sort, and drops the sorts. -/
def eraseTerms : List Expr → List Expr
  | [] => []
  | a :: as => if a.isSort then eraseTerms as else erase a :: eraseTerms as

end

@[simp] theorem eraseAll_eq_map (as : List Expr) : eraseAll as = as.map erase := by
  induction as with
  | nil => rfl
  | cons a as ih => rw [eraseAll, ih, List.map_cons]

@[simp] theorem eraseTerms_eq_map (as : List Expr) :
    eraseTerms as = (as.filter (!·.isSort)).map erase := by
  induction as with
  | nil => rfl
  | cons a as ih => cases h : a.isSort <;> simp [eraseTerms, h, ih]

end SortedRewriting.Expr
