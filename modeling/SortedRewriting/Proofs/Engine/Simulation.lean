import SortedRewriting.Proofs.Engine.Compiled
import SortedRewriting.Proofs.Engine.Encoding

/-!
# Rewriting trees simulates rewriting terms

* `patternHolds_encode_iff`: the tree of a term passes the test of a pattern exactly when the
  pattern matches the term.
* `ruleResult_encode`: the result of a rule is then its other side over the trees of what the match
  binds.
* **`Engine.Compiled.rewrite_treeOf`**: a rewrite of the tree of a term is `Engine.rewriteTerm`, the
  rule applied to the term.

Symbols have to have one kind and one code each (`CodeBook.Separates`), for a tree keeps the codes
only. A variable of a rule has one sort, and the digests of the matched side do not collide: the
result takes what it shares with the matched side from the tree, subterm by subterm.
-/

namespace SortedRewriting

open Bindings (Assignment failureName)

/-! ## Matching -/

section Encoded

variable {b : CodeBook} {width : Nat} {p t u : Expr}

/-- The trees of what a match binds. -/
def boundTrees (b : CodeBook) (width : Nat) (d : Bindings) : TreeAssignment :=
  fun name => (d.get? name).map (b.encode width)

/-- The tree of a matching term is an instance of the pattern. -/
theorem admits_encode (hp : p.WellFormed) (hu : u.WellFormed) (hwidth : u.Within width)
    (h : (p.matchWith u).isFailed = false) :
    b.Admits (boundTrees b width (p.matchWith u)) p (b.encode width u) :=
  CodeBook.admits_of_agrees hp hu hwidth (Expr.matchWith_sound p u h).1

open Classical in
/-- The terms whose trees are assigned, for the names of variables. -/
noncomputable def termsOf (b : CodeBook) (width : Nat) (t : Expr) (ρ : TreeAssignment) :
    Assignment := fun name =>
  if h : name ≠ failureName ∧ ∃ e : Expr, e.IsSubterm t ∧ ρ name = some (b.encode width e) then
    some h.2.choose
  else none

/-- **The test of a pattern on the tree of a term is matching.** -/
theorem patternHolds_encode_iff (hp : p.WellFormed) (hs : SingleSorted [p]) (hw : 1 ≤ width)
    (ht : t.WellFormed) (hwidth : t.Within width) (hsep : b.Separates [p, t])
    (hu : u.IsSubterm t) : patternHolds b width (b.encode width u) p = true ↔
      (p.matchWith u).isFailed = false := by
  have huwf := ht.subterm hu
  have hwithin : ∀ e : Expr, e.IsSubterm t → e.Within width :=
    fun e he v hv => hwidth v (hv.trans he)
  rw [patternHolds_iff_admits hp hs hw (CodeBook.encode_regular (hwithin u hu))]
  constructor
  · rintro ⟨ρ, hadm⟩
    have hterm : ∀ e : Expr, e.IsSubterm t → ∃ r ∈ [p, t], e.IsSubterm r :=
      fun e he => ⟨t, by simp, he⟩
    have hagrees : p.Agrees (termsOf b width t ρ) u := by
      refine CodeBook.agrees_of_admits hsep (fun name hname e he hρ => ?_) hp (.refl p) huwf
        (hwithin u hu) hu hadm
      have hex : name ≠ failureName ∧ ∃ e : Expr, e.IsSubterm t ∧
          ρ name = some (b.encode width e) := ⟨hp.ne_failureName hname, e, he, hρ⟩
      obtain ⟨hsub, htree⟩ := hex.2.choose_spec
      have hsame := CodeBook.encode_injective hsep (hwithin e he) (hwithin _ hsub) (hterm e he)
        (hterm _ hsub) (Option.some.inj (hρ.symm.trans htree))
      rw [termsOf, dif_pos hex, ← hsame]
    have hnone : termsOf b width t ρ failureName = none := dif_neg fun h => h.1 rfl
    exact (Expr.matchWith_complete hnone p u hagrees).ok
  · intro h
    exact ⟨_, admits_encode hp huwf (hwithin u hu) h⟩

end Encoded

/-! ## Rules -/

namespace Engine

/-- The tree of the produced side of a rule: the trees of what the match binds at its variables, a
fresh code with the instance of the sort at every variable that the rule introduces, and codes of
symbols elsewhere. -/
def producedTree (e : Engine) (rule : Rule) (dir : Direction) (d : Bindings) (s : Int64) : Tree :=
  (rule.produced dir).instantiate e.bounds.width
    (e.book.freshTag ((rule.produced dir).varsOutside (rule.matched dir)) s)
    (boundTrees e.book e.bounds.width d)

/-- A rule applied to a term at a path: `error` if the path is no position of the term, or if the
subterm there does not match. -/
def rewriteTerm (e : Engine) (t : Expr) (rule : Rule) (dir : Direction) (p : Path) (s : Int64) :
    Tree :=
  match t.subterm? p with
  | none => .error
  | some u =>
    if ((rule.matched dir).matchWith u).isFailed then .error
    else (e.treeOf t).replaceAt p (e.producedTree rule dir ((rule.matched dir).matchWith u) s)

variable {e : Engine} {tag : RuleTag} {rule : Rule} {t u : Expr}

theorem Intact.sides (h : e.Intact) (hr : e.rule? tag = some rule) (dir : Direction) :
    (rule.matched dir).WellFormed ∧ (rule.produced dir).WellFormed :=
  h.sound.sides (List.mem_of_getElem? hr) dir

/-- The result of a rule on the tree of a term that matches. -/
theorem Intact.ruleResult_encode (h : e.Intact) (hr : e.rule? tag = some rule)
    (hs : SingleSorted [rule.matched tag.direction, rule.produced tag.direction])
    (hdig : (rule.matched tag.direction).DistinctDigests) (hu : u.WellFormed)
    (hwidth : u.Within e.bounds.width)
    (hm : ((rule.matched tag.direction).matchWith u).isFailed = false) (s : Int64) :
    ruleResult e.book e.bounds.width tag rule (e.treeOf u) s =
      e.producedTree rule tag.direction ((rule.matched tag.direction).matchWith u) s := by
  have hwf := (h.sides hr tag.direction).1
  refine constructed_eq_instantiate hwf (CodeBook.encode_regular hwidth)
    (admits_encode hwf hu hwidth hm) (fun name hname => ?_) hs hdig
    (fun k s hk => CodeBook.freshTag_of_ne hk) (.refl _)
  unfold boundTrees
  cases hget : ((rule.matched tag.direction).matchWith u).get? name with
  | none => rfl
  | some x => exact absurd ((Expr.matchWith_sound _ _ hm).2 name x hget).1 hname

/-- The rule of a tag on the tree of a subterm. -/
theorem Intact.applyRules_encode (h : e.Intact) (hr : e.rule? tag = some rule)
    (hs : SingleSorted [rule.matched tag.direction, rule.produced tag.direction])
    (hdig : (rule.matched tag.direction).DistinctDigests) (ht : t.WellFormed)
    (hwidth : t.Within e.bounds.width) (hsep : e.book.Separates [rule.matched tag.direction, t])
    (hu : u.IsSubterm t) (s : Int64) :
    applyRules e.book e.bounds.width (taggedRules e.theory.rules e.bounds) (e.treeOf u) tag s =
      if ((rule.matched tag.direction).matchWith u).isFailed then .error
      else e.producedTree rule tag.direction ((rule.matched tag.direction).matchWith u) s := by
  have hwithin : u.Within e.bounds.width := hwidth.subterm hu
  have hw : 1 ≤ e.bounds.width := Nat.le_of_succ_le h.two_le_width
  have hholds := patternHolds_encode_iff (h.sides hr tag.direction).1 hs.left hw ht hwidth hsep hu
  obtain ⟨cs, hnode⟩ := CodeBook.exists_encode_eq_node (b := e.book) hwithin
  have hisNode : (e.treeOf u).isNode = true := Tree.isNode_iff.mpr ⟨_, cs, hnode⟩
  rw [h.applyRules_eq hr]
  by_cases hm : ((rule.matched tag.direction).matchWith u).isFailed = true
  · rw [if_pos hm, if_neg]
    rintro ⟨-, htest⟩
    rw [hholds.mp htest] at hm
    exact Bool.false_ne_true hm
  · have hm' : ((rule.matched tag.direction).matchWith u).isFailed = false := by simpa using hm
    rw [if_neg hm, if_pos ⟨hisNode, hholds.mpr hm'⟩]
    exact h.ruleResult_encode hr hs hdig (ht.subterm hu) hwithin hm' s

/-! ## The simulation -/

/-- A position of a term stays inside the slots of its nodes. -/
theorem lt_width_of_subterm? {width : Nat} (hwidth : t.Within width) {p : Position}
    (hp : t.subterm? p = some u) : ∀ i ∈ p, i < width := by
  induction p generalizing t with
  | nil => simp
  | cons i p ih =>
    obtain ⟨k, s, as⟩ := t
    obtain ⟨a, ha, hp⟩ := Expr.subterm?_cons_iff.mp hp
    refine List.forall_mem_cons.mpr ⟨?_, ih (hwidth.arg (List.mem_of_getElem? ha)) hp⟩
    exact Nat.lt_of_lt_of_le (List.getElem?_eq_some_iff.mp ha).1 (hwidth _ (.refl _))

/-- **A rewrite of the tree of a term is the rule applied to the term.** -/
theorem Compiled.rewrite_treeOf (he : e.Compiled) (hr : e.rule? tag = some rule)
    (hs : SingleSorted [rule.matched tag.direction, rule.produced tag.direction])
    (hdig : (rule.matched tag.direction).DistinctDigests) (ht : t.WellFormed)
    (hwidth : t.Within e.bounds.width) (hsep : e.book.Separates [rule.matched tag.direction, t])
    {p : Path} (hp : p.length ≤ e.bounds.depth) (s : Int64) :
    e.rewrite (e.treeOf t) tag p s = .ok (e.rewriteTerm t rule tag.direction p s) := by
  have hi := he.intact
  obtain ⟨cs, hnode⟩ := CodeBook.exists_encode_eq_node (b := e.book) hwidth
  have hisNode : (e.treeOf t).isNode = true := Tree.isNode_iff.mpr ⟨_, cs, hnode⟩
  have huniform : (e.treeOf t).Uniform e.bounds.width := (CodeBook.encode_regular hwidth).uniform
  rw [he.rewrite_eq, hi.applyAt_eq huniform hisNode]
  refine congrArg Except.ok ?_
  unfold rewriteTerm
  by_cases hc : e.bounds.containsPath p = true
  · rw [if_pos hc]
    cases hu : t.subterm? p with
    | none =>
      have hempty : ((e.treeOf t).getAt p).isNode = false := CodeBook.getAt_encode_none hwidth hu
      have herror : applyRules e.book e.bounds.width (taggedRules e.theory.rules e.bounds)
          ((e.treeOf t).getAt p) tag s = .error := by
        rw [hi.applyRules_eq hr, hempty]
        simp
      rw [herror]
      exact Tree.replaceAt_error _ p
    | some u =>
      have hget : (e.treeOf t).getAt p = e.treeOf u := CodeBook.getAt_encode hwidth hu
      rw [hget, hi.applyRules_encode hr hs hdig ht hwidth hsep ⟨p, hu⟩ s]
      simp only
      split
      · exact Tree.replaceAt_error _ p
      · rfl
  · have hout : t.subterm? p = none := by
      cases hu : t.subterm? p with
      | none => rfl
      | some u =>
        refine absurd (Bounds.containsPath_iff.mpr ⟨hp, fun i hmem => ?_⟩) hc
        exact Nat.le_of_lt_succ (lt_width_of_subterm? hwidth hu i hmem)
    rw [if_neg hc, hout]

/-- In the pair of `x` and `y` the rule of pairs, in reverse and in step seven, makes of `x` the
pair of `x` with a new variable of code `-15`. -/
theorem Compiled.rewrite_treeOf_pair : ∃ e : Engine, e.Compiled ∧
    e.rewrite (e.treeOf (Pairs.pair (Pairs.thingVar "x") (Pairs.thingVar "y"))) ⟨0, .reverse⟩ [1] 7 =
      .ok (Pairs.pairTree (Pairs.pairTree (Pairs.varTree 3) (Pairs.varTree (-15)))
        (Pairs.varTree 4)) := by
  obtain ⟨e, he, hr, hwidth, hsep, hdepth, hresult⟩ := Pairs.exists_engine (P := fun e =>
    e.rule? ⟨0, .reverse⟩ = some Pairs.first ∧
      (Pairs.pair (Pairs.thingVar "x") (Pairs.thingVar "y")).Within e.bounds.width ∧
      e.book.Separates [Pairs.first.matched .reverse,
        Pairs.pair (Pairs.thingVar "x") (Pairs.thingVar "y")] ∧
      [1].length ≤ e.bounds.depth ∧
      e.rewriteTerm (Pairs.pair (Pairs.thingVar "x") (Pairs.thingVar "y")) Pairs.first .reverse [1] 7 =
        Pairs.pairTree (Pairs.pairTree (Pairs.varTree 3) (Pairs.varTree (-15))) (Pairs.varTree 4))
    (by decide +kernel)
  refine ⟨e, he, ?_⟩
  rw [← hresult]
  exact he.rewrite_treeOf hr (by decide +kernel) (by decide +kernel) (by decide +kernel) hwidth hsep
    hdepth 7

end Engine

end SortedRewriting
