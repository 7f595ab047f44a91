import SortedRewriting.Proofs.Engine.Compiled
import SortedRewriting.Proofs.Engine.Construction
import SortedRewriting.Proofs.Engine.Encoding
import SortedRewriting.Proofs.Symbolic.Memo

/-!
# Pattern tests and constructions, over instances

`CodeBook.IsInstance` says that a tree is a pattern with trees put in for its variables, each of
which holds the sort of its variable in slot zero. No condition is on the trees themselves.

* `CodeBook.IsInstance.getAt`: an instance holds the instances of the subterms at their positions.
* `CodeBook.IsInstance.unique`: the trees that are put in can be read off the instance.
* **`Engine.Compiled.eval_patternTest`**: the test of a pattern decides whether a regular tree is an
  instance.
* **`Construction.eval_construct`**: what is constructed from an instance of a source is the target
  with the same trees put in, and without a source the encoding of the target, whatever is shared.
-/

namespace SortedRewriting

open Build (Yields)
open Term (Evaluates)

/-! ## Instances -/

/-- Where all variables are assigned, the tags of variables do not matter. -/
theorem Expr.instantiate_congr {width : Nat} {tag tag' : Kind → String → Int64}
    (htag : ∀ k s, k ≠ .var → tag k s = tag' k s) {ρ : TreeAssignment} {e : Expr}
    (hρ : ∀ name ∈ e.varNames, (ρ name).isSome) :
    e.instantiate width tag ρ = e.instantiate width tag' ρ := by
  induction e with
  | node k s as ih =>
    have hargs : as.map (Expr.instantiate width tag ρ) = as.map (Expr.instantiate width tag' ρ) :=
      List.map_congr_left fun a ha => ih a ha fun name hname =>
        hρ name (Expr.varNames_subset (Expr.isSubterm_arg ha) hname)
    rw [Expr.instantiate, Expr.instantiate]
    by_cases hk : k = .var
    · subst hk
      obtain ⟨y, hy⟩ := Option.isSome_iff_exists.mp
        (hρ s (Expr.mem_varNames_iff.mpr ⟨as, .refl _⟩))
      simp only [if_true, hy]
    · simp only [if_neg hk, Expr.instantiateAll_eq_map, hargs, htag k s hk]

namespace CodeBook

/-- The tree of a pattern with the assigned trees at its variables, and codes of symbols for the
tags of all other nodes. -/
def instanceOf (b : CodeBook) (width : Nat) (ρ : TreeAssignment) (p : Expr) : Tree :=
  p.instantiate width (fun _ s => b.code s) ρ

/-- The tree is the pattern with trees put in for exactly its variables, which hold the sorts of
their variables in slot zero. -/
structure IsInstance (b : CodeBook) (width : Nat) (ρ : TreeAssignment) (p : Expr) (x : Tree) :
    Prop where
  names : ∀ name, (ρ name).isSome ↔ name ∈ p.varNames
  sorts : ∀ name S, Expr.IsSubterm (.node .var name [S]) p → ∀ y, ρ name = some y →
    y.child 0 = b.instanceOf width ρ S
  result : b.instanceOf width ρ p = x

variable {b : CodeBook} {width : Nat} {ρ ρ' : TreeAssignment} {p t : Expr} {x : Tree}

theorem instanceOf_var {s : String} {as : List Expr} {y : Tree} (h : ρ s = some y) :
    b.instanceOf width ρ (.node .var s as) = y := by
  rw [instanceOf, Expr.instantiate, if_pos rfl, h]

theorem instanceOf_node {k : Kind} (hk : k ≠ .var) {s : String} {as : List Expr} :
    b.instanceOf width ρ (.node k s as) = .build (b.code s) (as.map (b.instanceOf width ρ)) width := by
  rw [instanceOf, Expr.instantiate, if_neg hk, Expr.instantiateAll_eq_map]
  rfl

/-- At a variable stands the assigned tree, with the instance of the sort of the variable in slot
zero. -/
theorem IsInstance.exists_assigned (h : b.IsInstance width ρ p x) (hp : p.WellFormed) {s : String}
    {as : List Expr} (ht : Expr.IsSubterm (.node .var s as) p) :
    ∃ S y, as = [S] ∧ ρ s = some y ∧ y.child 0 = b.instanceOf width ρ S := by
  obtain ⟨S, rfl, -, -⟩ := (hp.subterm ht).var_args
  obtain ⟨y, hy⟩ := Option.isSome_iff_exists.mp
    ((h.names s).mpr (Expr.mem_varNames_iff.mpr ⟨_, ht⟩))
  exact ⟨S, y, rfl, hy, h.sorts s S ht y hy⟩

/-- What stands for a subterm admits it, and so is a node. -/
theorem IsInstance.admits (h : b.IsInstance width ρ p x) (hp : p.WellFormed) (hw : p.Within width)
    (ht : t.IsSubterm p) : b.Admits ρ t (b.instanceOf width ρ t) := by
  induction t with
  | node k s as ih =>
    have hargs : ∀ a ∈ as, b.Admits ρ a (b.instanceOf width ρ a) := fun a ha => ih a ha (ht.arg ha)
    by_cases hk : k = .var
    · subst hk
      obtain ⟨S, y, rfl, hy, hsort⟩ := h.exists_assigned hp ht
      rw [instanceOf_var hy]
      refine admits_var_iff.mpr ⟨hy, ?_⟩
      rw [hsort]
      exact hargs S List.mem_cons_self
    · rw [instanceOf_node hk]
      refine admits_build hk (hw _ ht) hargs fun herror => ?_
      obtain ⟨a, ha, herror⟩ := List.mem_map.mp herror
      obtain ⟨_, _, hnode⟩ := (hargs a ha).exists_node (hp.subterm (ht.arg ha))
      rw [hnode] at herror
      cases herror

theorem IsInstance.ne_error (h : b.IsInstance width ρ p x) (hp : p.WellFormed)
    (hw : p.Within width) (ht : t.IsSubterm p) : b.instanceOf width ρ t ≠ .error := by
  obtain ⟨_, _, hnode⟩ := (h.admits hp hw ht).exists_node (hp.subterm ht)
  rw [hnode]
  nofun

/-- The children of an instance are the instances of the children. -/
theorem IsInstance.child (h : b.IsInstance width ρ p x) (hp : p.WellFormed) (hw : p.Within width)
    (ht : t.IsSubterm p) {i : Nat} {a : Expr} (ha : t.args[i]? = some a) :
    (b.instanceOf width ρ t).child i = b.instanceOf width ρ a := by
  obtain ⟨k, s, as⟩ := t
  by_cases hk : k = .var
  · subst hk
    obtain ⟨S, y, rfl, hy, hsort⟩ := h.exists_assigned hp ht
    rw [instanceOf_var hy]
    cases i with
    | zero =>
      cases ha
      exact hsort
    | succ i => exact absurd ha nofun
  · have hne := h.ne_error hp hw ht
    have hi : i < width := by
      have hlen := hw _ ht
      obtain ⟨hi, -⟩ := List.getElem?_eq_some_iff.mp ha
      exact Nat.lt_of_lt_of_le hi hlen
    rw [instanceOf_node hk] at hne ⊢
    have ha : as[i]? = some a := ha
    rw [Tree.child_build hne, if_pos hi, List.getElem?_map, ha]
    rfl

/-- **An instance holds the instances of the subterms**, at their positions. -/
theorem IsInstance.getAt (h : b.IsInstance width ρ p x) (hp : p.WellFormed) (hw : p.Within width)
    {q : Position} (hq : p.subterm? q = some t) : x.getAt q = b.instanceOf width ρ t := by
  have hfrom : ∀ {u : Expr} {q : Position}, u.IsSubterm p → u.subterm? q = some t →
      (b.instanceOf width ρ u).getAt q = b.instanceOf width ρ t := by
    intro u q hu hq
    induction q generalizing u with
    | nil =>
      cases hq
      rfl
    | cons i q ih =>
      obtain ⟨a, ha, hq⟩ := Expr.subterm?_cons_iff.mp hq
      rw [Tree.getAt_cons, h.child hp hw hu ha]
      refine ih ?_ hq
      obtain ⟨k, s, as⟩ := u
      exact hu.arg (List.mem_of_getElem? ha)
  rw [← h.result]
  exact hfrom (.refl p) hq

/-- **There is one way to put in trees**: each can be read off at a position of its variable. -/
theorem IsInstance.unique (h : b.IsInstance width ρ p x) (h' : b.IsInstance width ρ' p x)
    (hp : p.WellFormed) (hw : p.Within width) : ρ = ρ' := by
  funext name
  by_cases hname : name ∈ p.varNames
  · obtain ⟨y, hy⟩ := Option.isSome_iff_exists.mp ((h.names name).mpr hname)
    obtain ⟨y', hy'⟩ := Option.isSome_iff_exists.mp ((h'.names name).mpr hname)
    obtain ⟨rest, q, hq⟩ := Expr.mem_varNames_iff.mp hname
    have hat : x.getAt q = y := (h.getAt hp hw hq).trans (instanceOf_var hy)
    have hat' : x.getAt q = y' := (h'.getAt hp hw hq).trans (instanceOf_var hy')
    rw [hy, hy', ← hat, hat']
  · have hnone : ∀ {ρ : TreeAssignment}, b.IsInstance width ρ p x → ρ name = none := fun h =>
      Option.not_isSome_iff_eq_none.mp fun hsome => hname ((h.names name).mp hsome)
    rw [hnone h, hnone h']

/-- In slot zero of the tree of a variable stands the instance of its sort. -/
theorem Admits.child_zero (h : b.Admits ρ p x) (hp : p.WellFormed) (hx : x.Regular width)
    {name : String} {S : Expr} (hsub : Expr.IsSubterm (.node .var name [S]) p) {y : Tree}
    (hy : ρ name = some y) : y.child 0 = b.instanceOf width ρ S := by
  obtain ⟨q, hq⟩ := hsub
  obtain ⟨hy', hsort⟩ := admits_var_iff.mp (h.subterm hp hq)
  cases hy.symm.trans hy'
  have hS : S.WellFormed := hp.subterm (Expr.IsSubterm.arg List.mem_cons_self ⟨q, hq⟩)
  obtain ⟨t, cs, hnode⟩ := hsort.exists_node hS
  rw [← Tree.getAt_concat] at hsort hnode ⊢
  have hne : x.getAt (q ++ [0]) ≠ .error := by
    rw [hnode]
    nofun
  exact (instantiate_of_admits (fun _ _ _ => rfl) (hx.getAt hne) hsort).symm

/-- A regular tree that admits a pattern is an instance of it. -/
theorem Admits.isInstance (h : b.Admits ρ p x) (hp : p.WellFormed) (hx : x.Regular width)
    (hρ : ∀ name, (ρ name).isSome → name ∈ p.varNames) : b.IsInstance width ρ p x := by
  refine ⟨fun name => ⟨hρ name, fun hname => ?_⟩, fun name S hsub y => h.child_zero hp hx hsub,
    instantiate_of_admits (fun _ _ _ => rfl) hx h⟩
  obtain ⟨rest, q, hq⟩ := Expr.mem_varNames_iff.mp hname
  have hvar := h.subterm hp hq
  rw [Admits, if_pos rfl] at hvar
  rw [hvar.1]
  rfl

/-- The regular instances of a pattern are the trees that admit it. -/
theorem exists_isInstance_iff (hp : p.WellFormed) (hw : p.Within width) (hx : x.Regular width) :
    (∃ ρ, b.IsInstance width ρ p x) ↔ ∃ ρ, b.Admits ρ p x := by
  constructor
  · rintro ⟨ρ, h⟩
    have hadmits := h.admits hp hw (.refl p)
    rw [h.result] at hadmits
    exact ⟨ρ, hadmits⟩
  · rintro ⟨ρ, h⟩
    -- what is assigned to other names does not matter
    let ρ₀ : TreeAssignment := fun name => if name ∈ p.varNames then ρ name else none
    have h₀ : b.Admits ρ₀ p x := h.mono hp fun name hname y hy => (if_pos hname).trans hy
    refine ⟨ρ₀, h₀.isInstance hp hx fun name hsome => ?_⟩
    by_contra hname
    rw [show ρ₀ name = none from if_neg hname] at hsome
    cases hsome

end CodeBook

/-- A term has a value over a table when it evaluates to it with the calls of the table. -/
theorem FunctionTable.eval_eq_ok_iff {T : FunctionTable} {env : Env} {t : Term} {v : Value} :
    T.eval env t = .ok v ↔ Evaluates T.call env t v := by
  rw [FunctionTable.eval_eq_valueIn]
  rfl

variable {T : FunctionTable} {env : Env}

/-! ## Pattern tests -/

/-- **The test of a pattern decides whether a tree is an instance**, for a pattern that uses each
variable with one sort and a regular tree. The trees of its variables are unique. -/
theorem Engine.Compiled.eval_patternTest {e : Engine} (he : e.Compiled) {p : Expr}
    (hp : p.WellFormed) (hs : SingleSorted [p]) (hw : p.Within e.bounds.width) {x : Tree}
    (hx : x.Regular e.bounds.width) {t : Term} (ht : T.eval env t = .ok (.tree x)) :
    Yields (patternTest e.book e.bounds.width t p) (fun test =>
      ∃ answer, T.eval env test = .ok (.bool answer) ∧
        (answer = true ↔ ∃ ρ, e.book.IsInstance e.bounds.width ρ p x)) ∧
    ∀ ρ ρ', e.book.IsInstance e.bounds.width ρ p x → e.book.IsInstance e.bounds.width ρ' p x →
      ρ = ρ' := by
  have hwidth : 1 ≤ e.bounds.width := Nat.le_of_succ_le he.intact.two_le_width
  refine ⟨?_, fun ρ ρ' h h' => h.unique h' hp hw⟩
  refine (yields_patternTest (FunctionTable.eval_eq_ok_iff.mp ht) p).mono fun test htest => ?_
  refine ⟨_, FunctionTable.eval_eq_ok_iff.mpr htest, ?_⟩
  rw [patternHolds_iff_admits hp hs hwidth hx, CodeBook.exists_isInstance_iff hp hw hx]

namespace Pairs

/-- The pattern for pairs of equal components. -/
def diagonal : Expr := pair (thingVar "x") (thingVar "x")

/-- Its test, of a constant tree. -/
def diagonalTest (e : Engine) (x : Tree) : Term :=
  (patternTest e.book e.bounds.width (.const 0 (.tree x)) diagonal).result

end Pairs

open Pairs in
/-- A pair of equal components is an instance of the pattern for them, a pair of others is none. -/
theorem Engine.Compiled.eval_patternTest_diagonal : ∃ e : Engine, e.Compiled ∧
    (∃ ρ, e.book.IsInstance e.bounds.width ρ diagonal (pairTree (varTree 3) (varTree 3))) ∧
      ¬ ∃ ρ, e.book.IsInstance e.bounds.width ρ diagonal (pairTree (varTree 3) (varTree (-1))) := by
  obtain ⟨e, he, hwidth, hw, htrue, hfalse⟩ := Pairs.exists_engine (P := fun e =>
    e.bounds.width = 3 ∧ diagonal.Within e.bounds.width ∧
    (diagonalTest e (pairTree (varTree 3) (varTree 3))).valueIn e.functions.call ∅ =
      .ok (.bool true) ∧
    (diagonalTest e (pairTree (varTree 3) (varTree (-1)))).valueIn e.functions.call ∅ =
      .ok (.bool false))
    (by decide +kernel)
  have hdecides : ∀ x : Tree, x.Regular 3 → ∀ answer,
      (diagonalTest e x).valueIn e.functions.call ∅ = .ok (.bool answer) →
        (answer = true ↔ ∃ ρ, e.book.IsInstance e.bounds.width ρ diagonal x) := by
    intro x hx answer hanswer
    have hconst : e.functions.eval ∅ (.const 0 (.tree x)) = .ok (.tree x) :=
      FunctionTable.eval_eq_valueIn _ _
    obtain ⟨answer', heval, hiff⟩ := (Engine.Compiled.eval_patternTest he (p := diagonal)
      (by decide +kernel) (by decide +kernel) hw (hwidth ▸ hx) hconst).1.result
    rw [FunctionTable.eval_eq_valueIn] at heval
    cases hanswer.symm.trans heval
    exact hiff
  refine ⟨e, he, ?_, fun hinstance => ?_⟩
  · exact (hdecides _ (regular_pairTree (regular_varTree 3) (regular_varTree 3)) _ htrue).mp rfl
  · have hregular := regular_pairTree (regular_varTree 3) (regular_varTree (-1))
    cases (hdecides _ hregular _ hfalse).mpr hinstance

/-! ## Constructions -/

/-- The code of an introduced variable, computed in integers and wrapped. -/
theorem CodeBook.freshCode_eq_ofInt (b : CodeBook) (step : Int64) (index : Nat) :
    b.freshCode step index = .ofInt (-(b.stride * step.toInt) - index) := by
  unfold freshCode
  rw [Int64.ofInt_sub, Int64.ofInt_neg, Int64.ofInt_mul, Int64.ofInt_toInt, Int64.ofInt_eq_ofNat,
    Int64.ofInt_eq_ofNat]
  grind

namespace CodeBook

/-- The tag of a node of a target: the wrapped number of the step and the variable for a variable
that the source lacks, and the code of the symbol otherwise. -/
def targetTag (b : CodeBook) (source target : Expr) (step : Int64) (k : Kind) (s : String) : Int64 :=
  match (if k = .var then (target.varsOutside source).idxOf? s else none) with
  | some i => .ofInt (-(b.stride * step.toInt) - (i + 1 : Nat))
  | none => b.code s

theorem targetTag_eq (b : CodeBook) (source target : Expr) (step : Int64) :
    b.targetTag source target step = b.freshTag (target.varsOutside source) step := by
  funext k s
  unfold targetTag freshTag
  cases (if k = .var then (target.varsOutside source).idxOf? s else none) with
  | some i => exact (b.freshCode_eq_ofInt step (i + 1)).symm
  | none => rfl

end CodeBook

namespace Construction

variable {b : CodeBook} {width : Nat} {source target : Expr} {ρ : TreeAssignment} {x : Tree}

/-- The tree that is constructed from an instance of the source is the target with the same trees
put in. -/
theorem made_eq_instantiate (hsource : source.WellFormed) (hs : SingleSorted [source, target])
    (hw : source.Within width) (hdig : source.DistinctDigests)
    (h : b.IsInstance width ρ source x) (tree : Term) (step : Int64) :
    made b width target (some ⟨source, tree⟩) x step target =
      target.instantiate width (b.targetTag source target step) ρ := by
  rw [CodeBook.targetTag_eq]
  refine constructed_eq_of_getAt (fun q t hq => ?_) (fun name hname => ?_) hs hdig (.refl target)
  · rw [h.getAt hsource hw hq]
    refine Expr.instantiate_congr (fun k s hk => (CodeBook.freshTag_of_ne hk).symm) ?_
    intro name hname
    exact (h.names name).mpr (Expr.varNames_subset ⟨q, hq⟩ hname)
  · exact Option.not_isSome_iff_eq_none.mp fun hsome => hname ((h.names name).mp hsome)

/-- **Sharing does not change what is constructed.** Without a source it is the encoding of the
target, whichever digests coincide. From an instance of a source whose subterms have distinct
digests, it is the target with the trees of the instance at the variables of the source, and with
tags of the step for the variables that the source lacks. -/
theorem eval_construct (b : CodeBook) (width : Nat) (target : Expr) {stepTerm : Term} {step : Int64}
    (hstep : T.eval env stepTerm = .ok (.int step)) :
    Yields (construct b width target none stepTerm)
      (T.eval env · = .ok (.tree (b.encode width target))) ∧
    ∀ source ρ x tree, source.WellFormed → SingleSorted [source, target] → source.Within width →
      source.DistinctDigests → b.IsInstance width ρ source x → T.eval env tree = .ok (.tree x) →
      Yields (construct b width target (some ⟨source, tree⟩) stepTerm) (T.eval env · =
        .ok (.tree (target.instantiate width (b.targetTag source target step) ρ))) := by
  simp only [FunctionTable.eval_eq_ok_iff] at hstep ⊢
  constructor
  · have hread : ∀ s : Source, none = some s → Evaluates T.call env s.tree (.tree .error) := nofun
    refine (yields_construct hstep hread).mono fun t ht => ?_
    rwa [← constructed_eq_encode (x := .error) step target]
  · intro source ρ x tree hsource hs hw hdig h htree
    have hread : ∀ s, some (Source.mk source tree) = some s →
        Evaluates T.call env s.tree (.tree x) := by
      rintro s ⟨⟩
      exact htree
    refine (yields_construct hstep hread).mono fun t ht => ?_
    rwa [made_eq_instantiate hsource hs hw hdig h] at ht

end Construction

namespace Pairs

/-- A target that has the pair of equal components for a part, and a variable besides. -/
def extended : Expr := pair (pair (thingVar "x") (thingVar "z")) diagonal

/-- A tree for the variable of that pair. -/
def thingTree (name : String) : Option Tree := if name = "x" then some (varTree 3) else none

theorem isInstance_diagonal {b : CodeBook} (hthing : b.instanceOf 3 thingTree thing = .build 1 [] 3)
    (hdiagonal : b.instanceOf 3 thingTree diagonal = pairTree (varTree 3) (varTree 3)) :
    b.IsInstance 3 thingTree diagonal (pairTree (varTree 3) (varTree 3)) where
  names name := by
    have hnames : diagonal.varNames.toList = ["x"] := by decide +kernel
    rw [← Std.ExtTreeSet.mem_toList, hnames, List.mem_singleton, thingTree]
    split <;> simp_all
  sorts name S hsub y hy := by
    have hsorts : ∀ t ∈ Expr.subtermsOf [diagonal], t.kind = .var → t.args = [thing] := by
      decide +kernel
    cases hsorts _ (Expr.mem_subtermsOf_iff.mpr ⟨diagonal, by simp, hsub⟩) rfl
    unfold thingTree at hy
    split at hy
    · cases hy
      rw [hthing]
      rfl
    · cases hy
  result := hdiagonal

end Pairs

open Pairs in
/-- In step 5 the pair is taken over from the source, and the new variable gets a code of that step.
Without a source the target is encoded. -/
theorem Construction.eval_construct_extended : ∃ e : Engine, e.Compiled ∧
    e.functions.eval ∅ (construct e.book 3 extended none (.const 0 (.int 5))).result =
      .ok (.tree (e.book.encode 3 extended)) ∧
    e.functions.eval ∅ (construct e.book 3 extended
        (some ⟨diagonal, .const 1 (.tree (pairTree (varTree 3) (varTree 3)))⟩)
        (.const 0 (.int 5))).result =
      .ok (.tree (pairTree (pairTree (varTree 3) (varTree (-11)))
        (pairTree (varTree 3) (varTree 3)))) := by
  obtain ⟨e, he, hthing, hdiagonal, htarget⟩ := Pairs.exists_engine (P := fun e =>
    e.book.instanceOf 3 thingTree thing = .build 1 [] 3 ∧
    e.book.instanceOf 3 thingTree diagonal = pairTree (varTree 3) (varTree 3) ∧
    extended.instantiate 3 (e.book.targetTag diagonal extended 5) thingTree =
      pairTree (pairTree (varTree 3) (varTree (-11))) (pairTree (varTree 3) (varTree 3)))
    (by decide +kernel)
  have hconst : ∀ l v, e.functions.eval ∅ (.const l v) = .ok v := fun l v =>
    FunctionTable.eval_eq_valueIn _ _
  obtain ⟨hwithout, hwith⟩ := Construction.eval_construct e.book 3 extended (hconst 0 (.int 5))
  refine ⟨e, he, hwithout.result, ?_⟩
  rw [← htarget]
  exact (hwith diagonal thingTree _ _ (by decide +kernel) (by decide +kernel) (by decide +kernel)
    (by decide +kernel) (isInstance_diagonal hthing hdiagonal) (hconst 1 _)).result

end SortedRewriting
