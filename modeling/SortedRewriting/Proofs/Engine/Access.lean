import SortedRewriting.Proofs.Engine.Totality

/-!
# Path access by the functions of an engine

The functions `getAt` and `replaceAt` of an engine are choices among all paths within the bounds,
with a chain of selections or of rebuilt ancestors for each. `Tree.getAt` and `Tree.replaceAt`
follow the path.

* `Engine.Compiled.getAt_eq_getAt`: they select the same, from trees of any shape.
* `Engine.Compiled.replaceAt_eq_replaceAt`: they replace the same, in trees of full width.
* `Engine.Compiled.rewrite_eq_replaceAt`: a rewrite selects, rewrites at the root, and replaces.
* **`Engine.Compiled.access_agrees`**: all of this, and errors elsewhere.
-/

namespace SortedRewriting.Engine

variable {e : Engine} {x : Tree} {p : Path}

section Within

variable (he : e.Compiled)

include he

theorem Compiled.getAt_eq_getAt (hp : e.bounds.containsPath p = true) (x : Tree) :
    e.getAt x p = .ok (x.getAt p) := by
  rw [he.getAt_eq]
  exact congrArg Except.ok (if_pos hp)

theorem Compiled.getAt_outside (hp : e.bounds.containsPath p = false) (x : Tree) :
    e.getAt x p = .ok .error := by
  rw [he.getAt_eq]
  exact congrArg Except.ok (if_neg (Bool.eq_false_iff.mp hp))

theorem Compiled.replaceAt_eq_replaceAt (hp : e.bounds.containsPath p = true)
    (hx : x.Uniform e.bounds.width) (y : Tree) : e.replaceAt x y p = .ok (x.replaceAt p y) := by
  rw [he.replaceAt_eq, he.intact.putAt_eq hx, if_pos hp]

theorem Compiled.replaceAt_outside (hp : e.bounds.containsPath p = false) (x y : Tree) :
    e.replaceAt x y p = .ok .error := by
  rw [he.replaceAt_eq]
  exact congrArg Except.ok (if_neg (Bool.eq_false_iff.mp hp))

/-- **A rewrite selects, rewrites at the root, and replaces**, in a node of any shape. -/
theorem Compiled.rewrite_eq_replaceAt (x : Tree) (tag : RuleTag) (p : Path) (s : Int64) :
    ∃ u v, e.getAt x p = .ok u ∧ e.rewriteTop u tag s = .ok v ∧
      e.rewrite x tag p s = if x.isNode then e.replaceAt x v p else .ok .error := by
  refine ⟨_, _, he.getAt_eq x p, he.rewriteTop_eq _ tag s, ?_⟩
  rw [he.rewrite_eq, he.replaceAt_eq]
  unfold applyAt
  split <;> rfl

end Within

/-- **The functions of an engine agree with access along paths.** Outside the bounds they give an
error, and so does a rewrite of anything but a node. -/
theorem Compiled.access_agrees (he : e.Compiled) (p : Path) :
    (∀ x, e.getAt x p = .ok (if e.bounds.containsPath p then x.getAt p else .error)) ∧
    (e.bounds.containsPath p = true → ∀ x y, x.Uniform e.bounds.width →
      e.replaceAt x y p = .ok (x.replaceAt p y)) ∧
    (e.bounds.containsPath p = false → ∀ x y, e.replaceAt x y p = .ok .error) ∧
    ∀ x tag s, ∃ u v, e.getAt x p = .ok u ∧ e.rewriteTop u tag s = .ok v ∧
      e.rewrite x tag p s = if x.isNode then e.replaceAt x v p else .ok .error := by
  refine ⟨fun x => ?_, fun hp x y hx => he.replaceAt_eq_replaceAt hp hx y,
    fun hp => he.replaceAt_outside hp, fun x tag s => he.rewrite_eq_replaceAt x tag p s⟩
  split
  · rename_i hp
    exact he.getAt_eq_getAt hp x
  · rename_i hp
    exact he.getAt_outside (Bool.eq_false_iff.mpr hp) x

/-- The engine of pairs puts a tree in the last slot of a pair, selects it from a node of any shape,
and has no fourth slot. -/
theorem Compiled.access_agrees_pair : ∃ e : Engine, e.Compiled ∧
    e.replaceAt (Pairs.pairTree (Pairs.varTree 3) (Pairs.varTree 4)) .vacant [2] =
      .ok (Pairs.pairTree (Pairs.varTree 3) .vacant) ∧
    e.getAt (.node 5 [.error, .vacant, .node 7 []]) [2] = .ok (.node 7 []) ∧
    e.getAt (.node 5 [.vacant, .vacant, .vacant, .vacant]) [3] = .ok .error := by
  obtain ⟨e, he, hbounds⟩ := Pairs.exists_engine (P := fun e => e.bounds = ⟨2, 1, 1⟩)
    (by decide +kernel)
  have hpair : (Pairs.pairTree (Pairs.varTree 3) (Pairs.varTree 4)).Uniform e.bounds.width := by
    rw [hbounds]
    exact (Pairs.regular_pairTree (Pairs.regular_varTree 3) (Pairs.regular_varTree 4)).uniform
  obtain ⟨hget, hreplace, -, -⟩ := he.access_agrees [2]
  obtain ⟨houtside, -, -, -⟩ := he.access_agrees [3]
  refine ⟨e, he, ?_, ?_, ?_⟩
  · rw [hreplace (by rw [hbounds]; rfl) _ _ hpair]
    decide
  · rw [hget, hbounds]
    rfl
  · rw [houtside, hbounds]
    rfl

end SortedRewriting.Engine
