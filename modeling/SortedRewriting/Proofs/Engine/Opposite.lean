import SortedRewriting.Proofs.Engine.Compiled
import SortedRewriting.Proofs.Engine.Encoding
import SortedRewriting.Proofs.Tree.Replacing

/-!
# Opposite directions

Every rule is applied in two directions (`Direction.opposite`). If the matched side has no variable
that the produced side lacks, nothing is forgotten, and the opposite direction takes a step back,
also where the step has introduced variables.

* `CodeBook.admits_produced`: what a rule makes of an instance of one side is an instance of the
  other. The trees of introduced variables are assigned to them (`Expr.madeTrees`).
* `Engine.Intact.ruleResult_opposite`: from there the opposite direction makes the first tree again.
* **`Engine.Compiled.rewrite_opposite`**: a step and the opposite one at the same path, with any two
  step counters, change nothing.
-/

namespace SortedRewriting

/-! ## Directions -/

/-- The other direction. -/
def Direction.opposite : Direction → Direction
  | .forward => .reverse
  | .reverse => .forward

/-- The same rule in the other direction. -/
def RuleTag.opposite (tag : RuleTag) : RuleTag := ⟨tag.rule, tag.direction.opposite⟩

@[simp] theorem Rule.matched_opposite (r : Rule) (dir : Direction) :
    r.matched dir.opposite = r.produced dir := by
  cases dir <;> rfl

@[simp] theorem Rule.produced_opposite (r : Rule) (dir : Direction) :
    r.produced dir.opposite = r.matched dir := by
  cases dir <;> rfl

/-! ## Instances of both sides -/

open Classical in
/-- The trees that an instantiation makes for the variables of an expression. -/
noncomputable def Expr.madeTrees (width : Nat) (tag : Kind → String → Int64) (ρ : TreeAssignment)
    (e : Expr) : TreeAssignment := fun name =>
  if h : ∃ as, Expr.IsSubterm (.node .var name as) e then
    some ((Expr.node .var name h.choose).instantiate width tag ρ)
  else none

theorem Expr.madeTrees_eq_none {width : Nat} {tag : Kind → String → Int64} {ρ : TreeAssignment}
    {e : Expr} {name : String} (h : name ∉ e.varNames) : e.madeTrees width tag ρ name = none :=
  dif_neg fun hex => h (Expr.mem_varNames_iff.mpr hex)

/-- An assigned variable keeps its tree. -/
theorem Expr.madeTrees_of_assigned {width : Nat} {tag : Kind → String → Int64} {ρ : TreeAssignment}
    {e : Expr} {name : String} (h : name ∈ e.varNames) {x : Tree} (hx : ρ name = some x) :
    e.madeTrees width tag ρ name = some x := by
  have hex := Expr.mem_varNames_iff.mp h
  rw [madeTrees, dif_pos hex, Expr.instantiate, if_pos rfl, hx]

namespace CodeBook

variable {b : CodeBook} {width : Nat} {source target : Expr} {x : Tree} {ρ : TreeAssignment}
  {tag : Kind → String → Int64}

/-- **What is made of an instance of one side is an instance of the other.** -/
theorem admits_produced (hsource : source.WellFormed) (htarget : target.WellFormed)
    (hs : SingleSorted [source, target])
    (hρ : ∀ name, name ∉ source.varNames → ρ name = none) (h : b.Admits ρ source x)
    (htag : ∀ k s, k ≠ .var → tag k s = b.code s)
    (hne : target.instantiate width tag ρ ≠ .error) :
    b.Admits (target.madeTrees width tag ρ) target (target.instantiate width tag ρ) := by
  refine admits_instantiate htag ?_ ?_ htarget (.refl target) hne
  · intro name sort y hmem hy
    -- the variable has this very sort in the source
    have hname : name ∈ source.varNames := by
      by_contra hname
      rw [hρ name hname] at hy
      exact absurd hy nofun
    obtain ⟨as, hsub⟩ := Expr.mem_varNames_iff.mp hname
    have has : as = [sort] := hs name as [sort] ⟨source, by simp, hsub⟩ ⟨target, by simp, hmem⟩
    subst has
    obtain ⟨q, hq⟩ := hsub
    obtain ⟨hy', hadmits⟩ := admits_var_iff.mp (h.subterm hsource hq)
    cases hy.symm.trans hy'
    have hsub : sort.IsSubterm source := Expr.IsSubterm.arg List.mem_cons_self ⟨q, hq⟩
    refine hadmits.mono (hsource.subterm hsub) fun n hn z hz => ?_
    have hn' := Expr.varNames_subset (hmem.arg List.mem_cons_self) hn
    exact Expr.madeTrees_of_assigned hn' hz
  · intro name sort hsub
    have hex : ∃ as, Expr.IsSubterm (.node .var name as) target := ⟨_, hsub⟩
    have has : hex.choose = [sort] :=
      hs name _ _ ⟨target, by simp, hex.choose_spec⟩ ⟨target, by simp, hsub⟩
    rw [Expr.madeTrees, dif_pos hex, has]

end CodeBook

namespace Engine

/-! ## Steps back -/

/-- A rule in one direction that can be taken back: it forgets no variable, uses each with one sort,
and the digests of its subterms do not collide. -/
structure Reversible (rule : Rule) (dir : Direction) : Prop where
  kept : ∀ name ∈ (rule.matched dir).varNames, name ∈ (rule.produced dir).varNames
  singleSorted : SingleSorted [rule.matched dir, rule.produced dir]
  matchedDigests : (rule.matched dir).DistinctDigests
  producedDigests : (rule.produced dir).DistinctDigests

variable {e : Engine} {tag : RuleTag} {rule : Rule} {x y : Tree} {s : Int64}

/-- What a rule makes of a regular tree that it matches is regular, or an error. -/
theorem Intact.regular_ruleResult (h : e.Intact) (hr : e.rule? tag = some rule)
    (hx : x.Regular e.bounds.width) (hholds : ruleHolds e.book e.bounds.width tag rule x = true)
    (hne : ruleResult e.book e.bounds.width tag rule x s ≠ .error) :
    (ruleResult e.book e.bounds.width tag rule x s).Regular e.bounds.width := by
  have hwf := (h.sound.sides (List.mem_of_getElem? hr) tag.direction).1
  have hw : 1 ≤ e.bounds.width := Nat.le_of_succ_le h.two_le_width
  have hfits := (patternHolds_iff.mp hholds).1
  refine constructed_property (P := Tree.Regular e.bounds.width)
    (fun _ _ hcs hbuild => Tree.regular_build (Tree.build_ne_error hbuild).1 hcs)
    (fun source hsource p t hp => ?_) hne
  cases hsource
  obtain ⟨_, _, hnode⟩ := exists_node_of_fits hwf hw hfits hp
  exact hx.getAt (by rw [hnode]; nofun)

/-- A tree that a reversible rule matches is made again from what the rule makes of it. -/
theorem Intact.ruleResult_opposite (h : e.Intact) (hr : e.rule? tag = some rule)
    (hrev : Reversible rule tag.direction) (hx : x.Regular e.bounds.width)
    (hholds : ruleHolds e.book e.bounds.width tag rule x = true)
    (hy : ruleResult e.book e.bounds.width tag rule x s = y) (hreg : y.Regular e.bounds.width) :
    ruleHolds e.book e.bounds.width tag.opposite rule y = true ∧
      ∀ s', ruleResult e.book e.bounds.width tag.opposite rule y s' = x := by
  obtain ⟨hmatched, hproduced⟩ := h.sound.sides (List.mem_of_getElem? hr) tag.direction
  have hw : 1 ≤ e.bounds.width := Nat.le_of_succ_le h.two_le_width
  have hs := hrev.singleSorted
  obtain ⟨ρ₀, hadmits₀⟩ := (patternHolds_iff_admits hmatched hs.left hw hx).mp hholds
  let ρ : TreeAssignment := fun name =>
    if name ∈ (rule.matched tag.direction).varNames then ρ₀ name else none
  have hρ : ∀ name, name ∉ (rule.matched tag.direction).varNames → ρ name = none :=
    fun name hname => if_neg hname
  have hadmits : e.book.Admits ρ (rule.matched tag.direction) x :=
    hadmits₀.mono hmatched fun name hname z hz => (if_pos hname).trans hz
  have hmade := (constructed_eq_instantiate hmatched hx hadmits hρ hs hrev.matchedDigests
    (fun _ _ hk => CodeBook.freshTag_of_ne hk) (.refl (rule.produced tag.direction))).symm.trans hy
  have hback := CodeBook.admits_produced hmatched hproduced hs hρ hadmits
    (fun _ _ hk => CodeBook.freshTag_of_ne hk) (by rw [hmade]; exact hreg.ne_error)
  rw [hmade] at hback
  constructor
  · unfold ruleHolds RuleTag.opposite
    rw [Rule.matched_opposite]
    exact (patternHolds_iff_admits hproduced hs.swap.left hw hreg).mpr ⟨_, hback⟩
  · intro s'
    unfold ruleResult RuleTag.opposite
    simp only [Rule.matched_opposite, Rule.produced_opposite]
    rw [constructed_eq_instantiate hproduced hreg hback (fun name hname => Expr.madeTrees_eq_none hname)
      hs.swap hrev.producedDigests (fun _ _ hk => CodeBook.freshTag_of_ne hk) (.refl _)]
    refine CodeBook.instantiate_of_admits (fun _ _ hk => CodeBook.freshTag_of_ne hk) hx ?_
    exact hadmits.mono hmatched fun name hname z hz =>
      Expr.madeTrees_of_assigned (hrev.kept name hname) hz

/-- A step with a reversible rule is taken back by the opposite step. -/
theorem Intact.applyAt_opposite (h : e.Intact) (hr : e.rule? tag = some rule)
    (hrev : Reversible rule tag.direction) (hx : x.Regular e.bounds.width) {p : Path}
    (hstep : applyAt e.theory.rules e.book e.bounds x tag p s = y) (hy : y ≠ .error) :
    y.Regular e.bounds.width ∧
      ∀ s', applyAt e.theory.rules e.book e.bounds y tag.opposite p s' = x := by
  obtain ⟨rule', hr', hp, hholds, hreplace⟩ := (h.applyAt_eq_iff hx.uniform hy).mp hstep
  cases hr.symm.trans hr'
  generalize hmade : ruleResult e.book e.bounds.width tag rule (x.getAt p) s = r at hreplace
  subst hreplace
  have hget : x.getAt p ≠ .error := by
    intro herror
    have hnode := h.isNode_of_holds hr hholds
    rw [herror] at hnode
    exact absurd hnode Bool.false_ne_true
  have hsub := hx.getAt hget
  have hreg : r.Regular e.bounds.width := by
    subst hmade
    refine h.regular_ruleResult hr hsub hholds fun herror => hy ?_
    rw [herror, Tree.replaceAt_error]
  obtain ⟨hholds', hback⟩ := h.ruleResult_opposite hr hrev hsub hholds hmade hreg
  have hyreg := hx.replaceAt hreg hy
  refine ⟨hyreg, fun s' => (h.applyAt_eq_iff hyreg.uniform hx.ne_error).mpr ?_⟩
  rw [Tree.getAt_replaceAt hy]
  refine ⟨rule, hr, hp, hholds', ?_⟩
  rw [hback, Tree.replaceAt_replaceAt hy, hx.errorFree.replaceAt_getAt hget]

/-- **A step and the opposite one change nothing**, whatever variables the step has introduced. -/
theorem Compiled.rewrite_opposite (he : e.Compiled) (hr : e.rule? tag = some rule)
    (hkept : ∀ name ∈ (rule.matched tag.direction).varNames,
      name ∈ (rule.produced tag.direction).varNames)
    (hs : SingleSorted [rule.matched tag.direction, rule.produced tag.direction])
    (hdig : (rule.matched tag.direction).DistinctDigests)
    (hdig' : (rule.produced tag.direction).DistinctDigests) (hx : x.Regular e.bounds.width)
    {p : Path} (hstep : e.rewrite x tag p s = .ok y) (hy : y ≠ .error) (s' : Int64) :
    e.rewrite y tag.opposite p s' = .ok x := by
  rw [he.rewrite_eq, Except.ok.injEq] at hstep ⊢
  exact (he.intact.applyAt_opposite hr ⟨hkept, hs, hdig, hdig'⟩ hx hstep hy).2 s'

/-- A variable of a pair is expanded to a pair with a new variable, in step seven, and this is taken
back in step four. -/
theorem Compiled.rewrite_opposite_pair : ∃ (e : Engine) (x y : Tree), e.Compiled ∧
    x = Pairs.pairTree (Pairs.varTree 3) (Pairs.varTree 4) ∧
    y = Pairs.pairTree (Pairs.pairTree (Pairs.varTree 3) (Pairs.varTree (-15))) (Pairs.varTree 4) ∧
    x ≠ y ∧ y ≠ .error ∧ y.Occurs (-15) ∧ e.rewrite x ⟨0, .reverse⟩ [1] 7 = .ok y ∧
    e.rewrite y ⟨0, .forward⟩ [1] 4 = .ok x := by
  let x := Pairs.pairTree (Pairs.varTree 3) (Pairs.varTree 4)
  let y := Pairs.pairTree (Pairs.pairTree (Pairs.varTree 3) (Pairs.varTree (-15))) (Pairs.varTree 4)
  obtain ⟨e, he, hr, hwidth, hstep⟩ := Pairs.exists_engine (P := fun e =>
    e.rule? ⟨0, .reverse⟩ = some Pairs.first ∧ e.bounds.width = 3 ∧
      applyAt e.theory.rules e.book e.bounds x ⟨0, .reverse⟩ [1] 7 = y) (by decide +kernel)
  have hrewrite := (he.rewrite_eq _ _ _ _).trans (congrArg Except.ok hstep)
  have hkept : (Pairs.first.matched .reverse).varsOutside (Pairs.first.produced .reverse) = [] := by
    decide +kernel
  have hx : x.Regular e.bounds.width := by
    rw [hwidth]
    exact Pairs.regular_pairTree (Pairs.regular_varTree 3) (Pairs.regular_varTree 4)
  have hy : y ≠ .error := by decide +kernel
  refine ⟨e, x, y, he, rfl, rfl, by decide +kernel, hy, ?_, hrewrite, ?_⟩
  · exact .child (c := Pairs.pairTree (Pairs.varTree 3) (Pairs.varTree (-15))) (.tail _ (.head _))
      (.child (c := Pairs.varTree (-15)) (.tail _ (.tail _ (.head _))) .here)
  · exact he.rewrite_opposite hr (Expr.varsOutside_eq_nil_iff.mp hkept) (by decide +kernel)
      (by decide +kernel) (by decide +kernel) hx hrewrite hy 4

end Engine

end SortedRewriting
