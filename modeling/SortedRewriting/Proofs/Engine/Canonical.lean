import SortedRewriting.Proofs.Engine.Compiled
import SortedRewriting.Proofs.Tree.Replacing

/-!
# The trees that rewriting reaches

Whatever rules are applied, at whatever paths and with whatever step counters, a tree that is
reached from the encoding of a term is an error or canonical (`Tree.Canonical`): every node has all
its slots, no error stands inside, and vacant slots stand behind the children only.

* `canonical_constructed`: what a construction makes of canonical trees, nodes too wide excepted.
* `Engine.Compiled.rewrite_canonical`: a step from a canonical tree.
* **`Engine.Compiled.follow_canonical`**: a sequence of steps from an encoding, in which an error is
  never left again.
-/

namespace SortedRewriting

variable {b : CodeBook} {width : Nat} {x : Tree}

/-! ## Constructed trees -/

/-- A construction from canonical subtrees makes a canonical tree, or an error. -/
theorem canonical_constructed {tag : Kind → String → Int64} {source? : Option Expr}
    (htaken : ∀ source, source? = some source → ∀ p t, source.subterm? p = some t →
      (x.getAt p).Canonical width)
    {e : Expr} (h : e.constructed width tag source? x ≠ .error) :
    (e.constructed width tag source? x).Canonical width :=
  constructed_property (fun _ _ hcs hne => Tree.canonical_build hcs (Tree.build_ne_error hne).1)
    htaken h

/-- The tree of a term is canonical, unless one of its nodes is too wide. -/
theorem canonical_encode {e : Expr} (h : b.encode width e ≠ .error) :
    (b.encode width e).Canonical width := by
  rw [← constructed_eq_encode (x := .error) 0 e] at h ⊢
  exact canonical_constructed (fun _ hsource => by cases hsource) h

namespace Engine

/-! ## Steps -/

variable {e : Engine} {y : Tree} {tag : RuleTag} {p : Path} {s : Int64}

/-- What a rule makes of a canonical tree that it matches. -/
theorem Intact.canonical_ruleResult (h : e.Intact) {rule : Rule} (hr : e.rule? tag = some rule)
    (hx : x.Canonical e.bounds.width) (hholds : ruleHolds e.book e.bounds.width tag rule x = true)
    (hne : ruleResult e.book e.bounds.width tag rule x s ≠ .error) :
    (ruleResult e.book e.bounds.width tag rule x s).Canonical e.bounds.width := by
  have hwf := (h.sound.sides (List.mem_of_getElem? hr) tag.direction).1
  have hw : 1 ≤ e.bounds.width := Nat.le_of_succ_le h.two_le_width
  -- the test has seen a node wherever a subtree is taken from
  have hfits := (patternHolds_iff.mp hholds).1
  refine canonical_constructed (fun source hsource q t hq => ?_) hne
  cases hsource
  exact hx.getAt (Tree.isNode_iff.mpr (exists_node_of_fits hwf hw hfits hq))

/-- A step from a canonical tree leads to a canonical tree, or to an error. -/
theorem Compiled.rewrite_canonical (he : e.Compiled) (hx : x.Canonical e.bounds.width)
    (h : e.rewrite x tag p s = .ok y) : y = .error ∨ y.Canonical e.bounds.width := by
  by_cases hy : y = .error
  · exact .inl hy
  · rw [he.rewrite_eq, Except.ok.injEq, he.intact.applyAt_eq_iff hx.regular.uniform hy] at h
    obtain ⟨rule, hr, -, hholds, rfl⟩ := h
    have hnode := he.intact.isNode_of_holds hr hholds
    have hresult : ruleResult e.book e.bounds.width tag rule (x.getAt p) s ≠ .error := fun herror =>
      hy (by rw [herror, Tree.replaceAt_error])
    have hcanonical := he.intact.canonical_ruleResult hr (hx.getAt hnode) hholds hresult
    exact .inr (hx.replaceAt hcanonical hnode)

/-! ## Sequences of steps -/

/-- A call of `rewrite`. -/
structure RewriteCall where
  tag : RuleTag
  path : Path
  step : Int64

/-- Calls of `rewrite`, each on the result of the one before. -/
def follow (e : Engine) (x : Tree) (calls : List RewriteCall) : Except EvalError Tree :=
  calls.foldlM (fun x c => e.rewrite x c.tag c.path c.step) x

theorem follow_cons (c : RewriteCall) (calls : List RewriteCall) :
    e.follow x (c :: calls) = e.rewrite x c.tag c.path c.step >>= (e.follow · calls) :=
  List.foldlM_cons

theorem follow_append (calls later : List RewriteCall) :
    e.follow x (calls ++ later) = e.follow x calls >>= (e.follow · later) :=
  List.foldlM_append

/-- An error is never left again. -/
theorem Compiled.follow_error (he : e.Compiled) (calls : List RewriteCall) :
    e.follow .error calls = .ok .error := by
  induction calls with
  | nil => rfl
  | cons c calls ih =>
    rw [follow_cons, he.rewrite_error]
    exact ih

theorem Compiled.follow_of_canonical (he : e.Compiled) (calls : List RewriteCall)
    (hx : x.Canonical e.bounds.width) :
    ∃ y, e.follow x calls = .ok y ∧ (y = .error ∨ y.Canonical e.bounds.width) := by
  induction calls generalizing x with
  | nil => exact ⟨x, rfl, .inr hx⟩
  | cons c calls ih =>
    have hstep := he.rewrite_eq x c.tag c.path c.step
    rw [follow_cons, hstep]
    rcases he.rewrite_canonical hx hstep with herror | hcanonical
    · rw [herror]
      exact ⟨.error, he.follow_error calls, .inl rfl⟩
    · exact ih hcanonical

/-- **Every tree that is reached from an encoding is canonical, or an error for good.** -/
theorem Compiled.follow_canonical (he : e.Compiled) {t : Expr} {x₀ : Tree}
    (ht : e.encode t = .ok x₀) (calls : List RewriteCall) :
    ∃ x, e.follow x₀ calls = .ok x ∧
      ((x = .error ∧ ∀ later, e.follow x₀ (calls ++ later) = .ok .error) ∨
        x.Canonical e.bounds.width) := by
  have hstart : x₀ = .error ∨ x₀.Canonical e.bounds.width := by
    obtain ⟨t', -, hx₀⟩ := bind_eq_ok_iff.mp ht
    cases hx₀
    by_cases herror : e.treeOf t' = .error
    · exact .inl herror
    · exact .inr (canonical_encode herror)
  have hreached : ∃ x, e.follow x₀ calls = .ok x ∧ (x = .error ∨ x.Canonical e.bounds.width) := by
    rcases hstart with rfl | hcanonical
    · exact ⟨.error, he.follow_error calls, .inl rfl⟩
    · exact he.follow_of_canonical calls hcanonical
  obtain ⟨x, hx, rfl | hcanonical⟩ := hreached
  · refine ⟨.error, hx, .inl ⟨rfl, fun later => ?_⟩⟩
    rw [follow_append, hx]
    exact he.follow_error later
  · exact ⟨x, hx, .inr hcanonical⟩

/-- In a pair its first component is expanded to a pair, by the rule of pairs in reverse; the tree
that is reached is canonical. -/
theorem Compiled.follow_canonical_pair : ∃ (e : Engine) (x₀ x : Tree), e.Compiled ∧
    x₀ = Pairs.pairTree (Pairs.varTree 3) (Pairs.varTree 4) ∧
    x = Pairs.pairTree (Pairs.pairTree (Pairs.varTree 3) (Pairs.varTree (-15))) (Pairs.varTree 4) ∧
    e.encode (Pairs.pair (Pairs.thingVar "x") (Pairs.thingVar "y")) = .ok x₀ ∧
    e.follow x₀ [⟨⟨0, .reverse⟩, [1], 7⟩] = .ok x ∧ x ≠ .error ∧ x.Canonical e.bounds.width := by
  let x₀ := Pairs.pairTree (Pairs.varTree 3) (Pairs.varTree 4)
  let x := Pairs.pairTree (Pairs.pairTree (Pairs.varTree 3) (Pairs.varTree (-15))) (Pairs.varTree 4)
  obtain ⟨e, he, hencode, hstep⟩ := Pairs.exists_engine (P := fun e =>
    e.encode (Pairs.pair (Pairs.thingVar "x") (Pairs.thingVar "y")) = .ok x₀ ∧
      applyAt e.theory.rules e.book e.bounds x₀ ⟨0, .reverse⟩ [1] 7 = x) (by decide +kernel)
  obtain ⟨y, hy, hreached⟩ := he.follow_canonical hencode [⟨⟨0, .reverse⟩, [1], 7⟩]
  have hx : e.follow x₀ [⟨⟨0, .reverse⟩, [1], 7⟩] = .ok x := by
    rw [follow_cons, he.rewrite_eq, hstep]
    rfl
  have hne : x ≠ .error := by decide +kernel
  cases hy.symm.trans hx
  refine ⟨e, x₀, x, he, rfl, rfl, hencode, hx, hne, ?_⟩
  rcases hreached with ⟨herror, -⟩ | hcanonical
  · exact absurd herror hne
  · exact hcanonical

end Engine

end SortedRewriting
