import SortedRewriting.Proofs.Engine.Opposite
import SortedRewriting.Proofs.Tree.Laws

/-!
# Steps at independent positions

A step reads and writes the subtree at its path only. `Engine.topResult` is what a rule makes of a
tree at its root, and a step puts it in the place of the subtree that it was made of. So a step at
an incomparable path (`Path.Incomparable`) finds what it would have found before.

* `Engine.Intact.applyAt_of_uniform`: a step as one replacement, in nodes and elsewhere.
* `Engine.Intact.applyAt_applyAt`: two steps as two replacements in the first tree.
* **`Engine.Compiled.rewrite_comm`**: steps at incomparable paths commute, and neither makes the
  other fail.
-/

namespace SortedRewriting.Engine

variable {e : Engine} {x y : Tree} {p q : Path} {tag tag' : RuleTag} {s s' : Int64}

/-! ## A step as a replacement -/

/-- What a rule makes of a tree at its root. -/
def topResult (e : Engine) (tag : RuleTag) (s : Int64) (x : Tree) : Tree :=
  applyRules e.book e.bounds.width (taggedRules e.theory.rules e.bounds) x tag s

/-- No rule applies to anything but a node. -/
theorem topResult_of_not_node (hx : ¬ x.isNode = true) : e.topResult tag s x = .error := if_neg hx

/-- Where there is no node, every step is an error. -/
theorem applyAt_of_not_node (hx : ¬ x.isNode = true) (p : Path) :
    applyAt e.theory.rules e.book e.bounds x tag p s = .error := if_neg hx

/-- An error stays an error. -/
theorem applyAt_error : applyAt e.theory.rules e.book e.bounds .error tag p s = .error := rfl

/-- A step outside the bounds is an error. -/
theorem applyAt_outside (hp : ¬ e.bounds.containsPath p = true) :
    applyAt e.theory.rules e.book e.bounds x tag p s = .error := by
  unfold applyAt putAt withinPaths
  rw [if_neg hp, ite_self]

/-- **A step is one replacement**, at a path within the bounds. -/
theorem Intact.applyAt_of_uniform (h : e.Intact) (hx : x.Uniform e.bounds.width) (p : Path) :
    applyAt e.theory.rules e.book e.bounds x tag p s =
      if e.bounds.containsPath p then x.replaceAt p (e.topResult tag s (x.getAt p)) else .error := by
  by_cases hnode : x.isNode = true
  · exact h.applyAt_eq hx hnode p s
  · have hresult : e.topResult tag s (x.getAt p) = .error :=
      topResult_of_not_node fun hp => hnode (Tree.isNode_of_getAt hp)
    rw [applyAt_of_not_node hnode, hresult, Tree.replaceAt_error, ite_self]

/-- What a rule makes of a regular tree is regular, or an error. -/
theorem Intact.regular_topResult (h : e.Intact) (hx : x.Regular e.bounds.width)
    (hne : e.topResult tag s x ≠ .error) : (e.topResult tag s x).Regular e.bounds.width := by
  unfold topResult at hne ⊢
  cases hr : e.rule? tag with
  | none => exact absurd (h.applyRules_eq_error hr x s) hne
  | some rule =>
    rw [h.applyRules_eq hr] at hne ⊢
    by_cases hmatch : x.isNode = true ∧ ruleHolds e.book e.bounds.width tag rule x = true
    · rw [if_pos hmatch] at hne ⊢
      exact h.regular_ruleResult hr hx hmatch.2 hne
    · exact absurd (if_neg hmatch) hne

/-- Putting what a rule makes in the place of a subtree keeps a tree regular. -/
theorem Intact.regular_replaceAt (h : e.Intact) (hx : x.Regular e.bounds.width)
    (hne : x.replaceAt p (e.topResult tag s (x.getAt p)) ≠ .error) :
    (x.replaceAt p (e.topResult tag s (x.getAt p))).Regular e.bounds.width := by
  have hresult : e.topResult tag s (x.getAt p) ≠ .error := fun herror =>
    hne (by rw [herror, Tree.replaceAt_error])
  have hget : x.getAt p ≠ .error := fun herror =>
    hresult (by rw [herror]; exact topResult_of_not_node Bool.false_ne_true)
  exact hx.replaceAt (h.regular_topResult (hx.getAt hget) hresult) hne

/-! ## Two steps -/

/-- **Two steps at incomparable paths are two replacements in the tree before both.** -/
theorem Intact.applyAt_applyAt (h : e.Intact) (hx : x.Regular e.bounds.width)
    (hpq : Path.Incomparable p q) (hp : e.bounds.containsPath p = true)
    (hq : e.bounds.containsPath q = true) :
    applyAt e.theory.rules e.book e.bounds
        (applyAt e.theory.rules e.book e.bounds x tag p s) tag' q s' =
      (x.replaceAt p (e.topResult tag s (x.getAt p))).replaceAt q
        (e.topResult tag' s' (x.getAt q)) := by
  rw [h.applyAt_of_uniform hx.uniform p, if_pos hp]
  by_cases hne : x.replaceAt p (e.topResult tag s (x.getAt p)) = .error
  · rw [hne, Tree.replaceAt_of_error hpq.symm.ne_nil, applyAt_error]
  · rw [h.applyAt_of_uniform (h.regular_replaceAt hx hne).uniform q, if_pos hq,
      Tree.getAt_replaceAt_of_incomparable hne hpq]

/-- **Steps at incomparable paths commute**, and the tree after both is an error exactly if one of
them fails on its own. -/
theorem Intact.applyAt_comm (h : e.Intact) (hx : x.Regular e.bounds.width)
    (hpq : Path.Incomparable p q) (tag tag' : RuleTag) (s s' : Int64) {u v : Tree}
    (hu : applyAt e.theory.rules e.book e.bounds x tag p s = u)
    (hv : applyAt e.theory.rules e.book e.bounds x tag' q s' = v) :
    applyAt e.theory.rules e.book e.bounds u tag' q s' =
        applyAt e.theory.rules e.book e.bounds v tag p s ∧
      (applyAt e.theory.rules e.book e.bounds u tag' q s' = .error ↔ u = .error ∨ v = .error) := by
  subst hu hv
  by_cases hp : e.bounds.containsPath p = true
  · by_cases hq : e.bounds.containsPath q = true
    · rw [h.applyAt_applyAt hx hpq hp hq, h.applyAt_applyAt hx hpq.symm hq hp,
        h.applyAt_of_uniform hx.uniform p, h.applyAt_of_uniform hx.uniform q, if_pos hp, if_pos hq]
      have hcomm := hx.errorFree.replaceAt_comm (y := e.topResult tag s (x.getAt p))
        (z := e.topResult tag' s' (x.getAt q)) hpq
      refine ⟨hcomm, fun herror => ?_, ?_⟩
      · by_contra hne
        obtain ⟨hup, hvq⟩ := not_or.mp hne
        exact hx.errorFree.replaceAt_replaceAt_ne_error hpq hup hvq herror
      · rintro (hup | hvq)
        · rw [hup, Tree.replaceAt_of_error hpq.symm.ne_nil]
        · rw [hcomm, hvq, Tree.replaceAt_of_error hpq.ne_nil]
    · simp only [applyAt_outside hq, applyAt_error, or_true, and_self]
  · simp only [applyAt_outside hp, applyAt_error, true_or, and_self]

/-- **Rewrites at independent positions commute**, whether both rules apply, one or none. The second
of them fails only if it fails on its own. -/
theorem Compiled.rewrite_comm (he : e.Compiled) (hx : x.Regular e.bounds.width)
    (hpq : Path.Incomparable p q) (tag tag' : RuleTag) (s s' : Int64) :
    ∃ u v y, e.rewrite x tag p s = .ok u ∧ e.rewrite u tag' q s' = .ok y ∧
      e.rewrite x tag' q s' = .ok v ∧ e.rewrite v tag p s = .ok y ∧
      (y = .error ↔ u = .error ∨ v = .error) := by
  obtain ⟨hcomm, herror⟩ := he.intact.applyAt_comm hx hpq tag tag' s s' rfl rfl
  refine ⟨_, _, _, he.rewrite_eq x tag p s, he.rewrite_eq _ tag' q s', he.rewrite_eq x tag' q s',
    ?_, herror⟩
  rw [he.rewrite_eq, hcomm]

/-- In a pair both components are expanded to pairs, by the rule of pairs in reverse; each of them
gets the new variable of its step, in whichever order. -/
theorem Compiled.rewrite_comm_pair : ∃ (e : Engine) (x u v y : Tree), e.Compiled ∧
    x = Pairs.pairTree (Pairs.varTree 3) (Pairs.varTree 4) ∧ x.Regular e.bounds.width ∧
    Path.Incomparable [1] [2] ∧
    y = Pairs.pairTree (Pairs.pairTree (Pairs.varTree 3) (Pairs.varTree (-15)))
      (Pairs.pairTree (Pairs.varTree 4) (Pairs.varTree (-9))) ∧
    e.rewrite x ⟨0, .reverse⟩ [1] 7 = .ok u ∧ e.rewrite u ⟨0, .reverse⟩ [2] 4 = .ok y ∧
    e.rewrite x ⟨0, .reverse⟩ [2] 4 = .ok v ∧ e.rewrite v ⟨0, .reverse⟩ [1] 7 = .ok y := by
  obtain ⟨e, he, hwidth, htwice⟩ := Pairs.exists_engine (P := fun e =>
    e.bounds.width = 3 ∧
      applyAt e.theory.rules e.book e.bounds
          (applyAt e.theory.rules e.book e.bounds
            (Pairs.pairTree (Pairs.varTree 3) (Pairs.varTree 4)) ⟨0, .reverse⟩ [1] 7)
          ⟨0, .reverse⟩ [2] 4 =
        Pairs.pairTree (Pairs.pairTree (Pairs.varTree 3) (Pairs.varTree (-15)))
          (Pairs.pairTree (Pairs.varTree 4) (Pairs.varTree (-9))))
    (by decide +kernel)
  have hx : (Pairs.pairTree (Pairs.varTree 3) (Pairs.varTree 4)).Regular e.bounds.width := by
    rw [hwidth]
    exact Pairs.regular_pairTree (Pairs.regular_varTree 3) (Pairs.regular_varTree 4)
  have hpq : Path.Incomparable [1] [2] := by decide
  obtain ⟨u, v, y, hu, huy, hv, hvy, -⟩ := he.rewrite_comm hx hpq ⟨0, .reverse⟩ ⟨0, .reverse⟩ 7 4
  refine ⟨e, _, u, v, y, he, rfl, hx, hpq, ?_, hu, huy, hv, hvy⟩
  rw [he.rewrite_eq, Except.ok.injEq] at hu huy
  rw [← huy, ← hu, htwice]

end SortedRewriting.Engine
