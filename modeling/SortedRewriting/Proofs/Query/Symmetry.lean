import SortedRewriting.Proofs.Engine.Canonical
import SortedRewriting.Proofs.Engine.Opposite
import SortedRewriting.Proofs.Query.Verdict

/-!
# Reachability there and back

Where both sides of every rule have the same variables (`Rule.KeepsVariables`), rewriting can be
taken back: what is reached in some number of steps reaches its start in as many.

* `Engine.Derivation.reverse`: the derivation back, whatever its step counters are.
* `Query.Shortest.back`: the shortest derivations of a query and of the query from its goal to its
  start have one length.
* **`Query.run_back`**: if both queries are decided, they are answered alike, with traces of one
  length.
* `Query.run_back_constants`: this fails for a rule whose declared sides have the same variables, as
  the sort of a constant may have more.

So the rules are those of the engine, whose applications carry the sorts that are inferred for them.
-/

namespace SortedRewriting

/-- Both sides of a rule have the same variables, each with one sort, and no two subterms of a side
have one digest. -/
structure Rule.KeepsVariables (r : Rule) : Prop where
  vars : ∀ name, name ∈ r.left.varNames ↔ name ∈ r.right.varNames
  singleSorted : SingleSorted [r.left, r.right]
  leftDigests : r.left.DistinctDigests
  rightDigests : r.right.DistinctDigests

theorem Rule.keepsVariables_iff {r : Rule} : r.KeepsVariables ↔
    (r.left.varsOutside r.right = [] ∧ r.right.varsOutside r.left = []) ∧
      SingleSorted [r.left, r.right] ∧ r.left.DistinctDigests ∧ r.right.DistinctDigests := by
  rw [Expr.varsOutside_eq_nil_iff, Expr.varsOutside_eq_nil_iff]
  constructor
  · rintro ⟨hvars, hs, hleft, hright⟩
    exact ⟨⟨fun name => (hvars name).mp, fun name => (hvars name).mpr⟩, hs, hleft, hright⟩
  · rintro ⟨⟨hleftright, hrightleft⟩, hs, hleft, hright⟩
    exact ⟨fun name => ⟨hleftright name, hrightleft name⟩, hs, hleft, hright⟩

instance (r : Rule) : Decidable r.KeepsVariables := decidable_of_iff _ Rule.keepsVariables_iff.symm

namespace Engine

/-- A rule that keeps its variables can be taken back in both directions. -/
theorem reversible_of_keepsVariables {r : Rule} (h : r.KeepsVariables) (dir : Direction) :
    Reversible r dir := by
  cases dir with
  | forward =>
    exact ⟨fun name => (h.vars name).mp, h.singleSorted, h.leftDigests, h.rightDigests⟩
  | reverse =>
    exact ⟨fun name => (h.vars name).mpr, h.singleSorted.swap, h.rightDigests, h.leftDigests⟩

variable {e : Engine} {k : Nat} {x z : Tree} {as : List Application}

/-- **A derivation is taken back** from its end, with as many steps. -/
theorem Derivation.reverse (he : e.Compiled) (hrules : ∀ r ∈ e.theory.rules, r.KeepsVariables)
    (h : e.Derivation k x as z) (hx : x.Regular e.bounds.width) (hz : z ≠ .error) (k' : Nat) :
    ∃ as', e.Derivation k' z as' x ∧ as'.length = as.length := by
  induction h with
  | nil => exact ⟨[], .nil, rfl⟩
  | @cons k x tag p y as z known inside rewrite rest ih =>
    obtain ⟨rule, hr⟩ := he.intact.exists_rule known
    have hrev := reversible_of_keepsVariables (hrules rule (List.mem_of_getElem? hr)) tag.direction
    rw [he.rewrite_eq, Except.ok.injEq] at rewrite
    obtain ⟨hy, hback⟩ :=
      he.intact.applyAt_opposite hr hrev hx rewrite (rest.ne_error he hz)
    obtain ⟨as', hder, hlen⟩ := ih hy hz
    have hlt : tag.rule < e.bounds.ruleCount := Bounds.mem_ruleTags_iff.mp known
    have hknown : tag.opposite ∈ e.bounds.ruleTags := Bounds.mem_ruleTags_iff.mpr hlt
    have hlast := (he.rewrite_eq y tag.opposite p (.ofNat (k' + as'.length))).trans
      (congrArg Except.ok (hback _))
    refine ⟨_, hder.concat hknown inside hlast, ?_⟩
    rw [List.length_append, hlen, List.length_singleton, List.length_cons]

/-! ## Engines with other names -/

/-- The names for decoding do not matter to a derivation. -/
theorem derivation_register_iff {t : Expr} :
    (e.register t).Derivation k x as z ↔ e.Derivation k x as z := by
  constructor
  · intro h
    induction h with
    | nil => exact .nil
    | cons known inside rewrite _ ih => exact .cons known inside rewrite ih
  · intro h
    induction h with
    | nil => exact .nil
    | cons known inside rewrite _ ih => exact .cons known inside rewrite ih

end Engine

namespace CodeBook

/-- Encoding depends on the codes only. -/
theorem encode_congr {b b' : CodeBook} (h : b.codes = b'.codes) (width : Nat) (e : Expr) :
    b.encode width e = b'.encode width e := by
  have hcode : ∀ s, b.code s = b'.code s := by
    intro s
    unfold code theoryCode?
    rw [h]
  induction e with
  | node k s as ih =>
    rw [encode, encode, encodeAll_eq_map, encodeAll_eq_map, hcode, List.map_congr_left ih]

end CodeBook

/-- The names for decoding do not matter to the tree of an expression. -/
theorem Engine.treeOf_register (e : Engine) (t u : Expr) : (e.register t).treeOf u = e.treeOf u :=
  CodeBook.encode_congr (CodeBook.records_register e.book t).codes e.bounds.width u

namespace Query

/-! ## A query and the query back -/

/-- The query back from the goal to the start. -/
structure Back (q q' : Query) : Prop where
  derivation : ∀ {k x as z}, q.engine.Derivation k x as z ↔ q'.engine.Derivation k x as z
  start : q'.startTree = q.goalTree
  goal : q'.goalTree = q.startTree
  maxSteps : q'.config.maxSteps = q.config.maxSteps
  rules : q'.engine.theory.rules = q.engine.theory.rules

variable {q q' : Query} {as : List Application} {theory : Theory} {start goal : Expr}
  {config : SearchConfig}

theorem back_of_pose (hq : pose theory start goal config = .ok q)
    (hq' : pose theory goal start config = .ok q') : Back q q' := by
  obtain ⟨engine, start', goal', hcompile, hstart, hgoal, rfl⟩ := exists_engine_of_pose hq
  obtain ⟨engine', goal'', start'', hcompile', hgoal', hstart', rfl⟩ := exists_engine_of_pose hq'
  cases hcompile.symm.trans hcompile'
  cases hstart.symm.trans hstart'
  cases hgoal.symm.trans hgoal'
  refine ⟨?_, ?_, ?_, rfl, rfl⟩
  · intro k x as z
    simp only [Engine.derivation_register_iff]
  · simp only [startTree, goalTree, Engine.treeOf_register]
  · simp only [startTree, goalTree, Engine.treeOf_register]

theorem Back.symm (h : Back q q') : Back q' q :=
  ⟨h.derivation.symm, h.goal.symm, h.start.symm, h.maxSteps.symm, h.rules.symm⟩

/-- The tree of an expression is regular, or an error. -/
theorem regular_treeOf {e : Engine} {t : Expr} (h : e.treeOf t ≠ .error) :
    (e.treeOf t).Regular e.bounds.width :=
  (canonical_encode h).regular

/-- A derivation of the goal is taken back to one of the query back. -/
theorem Back.exists_derivation (hback : Back q q') (he : q.engine.Compiled)
    (hrules : ∀ r ∈ q.engine.theory.rules, r.KeepsVariables) (hstart : q.startTree ≠ .error)
    (hgoal : q.goalTree ≠ .error) (h : q.engine.Derivation 0 q.startTree as q.goalTree) :
    ∃ as', q'.engine.Derivation 0 q'.startTree as' q'.goalTree ∧ as'.length = as.length := by
  rw [hback.start, hback.goal]
  obtain ⟨as', hder, hlen⟩ := h.reverse he hrules (regular_treeOf hstart) hgoal 0
  exact ⟨as', hback.derivation.mp hder, hlen⟩

/-- A shortest derivation of the query has the length of one of the query back. -/
theorem Shortest.back (hback : Back q q') (he : q.engine.Compiled) (he' : q'.engine.Compiled)
    (hrules : ∀ r ∈ q.engine.theory.rules, r.KeepsVariables) (hstart : q.startTree ≠ .error)
    (hgoal : q.goalTree ≠ .error) (h : q.Shortest as) :
    ∃ as', q'.Shortest as' ∧ as'.length = as.length := by
  obtain ⟨as', hder, hlen⟩ := hback.exists_derivation he hrules hstart hgoal h.derivation
  refine ⟨as', ⟨hder, ?_, fun bs hbs => ?_⟩, hlen⟩
  · rw [hlen, hback.maxSteps]
    exact h.within
  · obtain ⟨bs', hbs', hlen'⟩ := hback.symm.exists_derivation he' (hback.rules ▸ hrules)
      (hback.start ▸ hgoal) (hback.goal ▸ hstart) hbs
    rw [hlen, ← hlen']
    exact h.shortest bs' hbs'

/-! ## Answers -/

section Run

variable {m : Type → Type} [Monad m] [LawfulMonad m]

/-- An answer that is decided is exact. -/
theorem exact_of_decided (he : q.engine.Compiled) (hgoal : q.goalTree ≠ .error)
    (save : Checker.Save m) : Returns (fun r => Decided r → q.Exact r) (q.run save) :=
  run_returns he (fun _ hanswer _ => exact_conclude he hgoal hanswer) (fun _ _ => False.elim) save

/-- **A query and the query back are answered alike**, if both are decided. -/
theorem run_back (made : theory.Made) (hq : pose theory start goal config = .ok q)
    (hq' : pose theory goal start config = .ok q')
    (hrules : ∀ r ∈ q.engine.theory.rules, r.KeepsVariables) (hstart : q.startTree ≠ .error)
    (hgoal : q.goalTree ≠ .error) (save save' : Checker.Save m) :
    Returns (fun r => Decided r.1 → Decided r.2 → ∀ n, stepsOf r.1 = some n ↔ stepsOf r.2 = some n)
      (do return (← q.run save, ← q'.run save')) := by
  have hback := back_of_pose hq hq'
  have he := compiled_of_pose made hq
  have he' := compiled_of_pose made hq'
  have hrules' : ∀ r ∈ q'.engine.theory.rules, r.KeepsVariables := hback.rules ▸ hrules
  have hstart' : q'.startTree ≠ .error := hback.start ▸ hgoal
  have hgoal' : q'.goalTree ≠ .error := hback.goal ▸ hstart
  refine (exact_of_decided he hgoal save).bind fun r hr => ?_
  refine (exact_of_decided he' hgoal' save').bind fun r' hr' => .pure fun hd hd' n => ?_
  rw [stepsOf_eq_some_iff hd (hr hd), stepsOf_eq_some_iff hd' (hr' hd')]
  constructor
  · rintro ⟨as, has, rfl⟩
    exact has.back hback he he' hrules hstart hgoal
  · rintro ⟨as, has, rfl⟩
    exact has.back hback.symm he' he hrules' hstart' hgoal'

end Run

/-- The components of a pair may be swapped. -/
def swap : Rule :=
  ⟨"swap", "", Pairs.pair (Pairs.thingVar "x") (Pairs.thingVar "y"),
    Pairs.pair (Pairs.thingVar "y") (Pairs.thingVar "x")⟩

/-- The pair of `x` and `y` rewrites to the pair of `y` and `x` in one step, and so it does back. -/
theorem run_back_swap : ∃ (q q' : Query) (r r' : Except Failure SearchOutcome),
    q.startTree = Pairs.pairTree (Pairs.varTree 3) (Pairs.varTree 4) ∧
    q.goalTree = Pairs.pairTree (Pairs.varTree 4) (Pairs.varTree 3) ∧
    q'.startTree = q.goalTree ∧ q'.goalTree = q.startTree ∧
    Id.run (q.run fun _ _ => true) = r ∧ Id.run (q'.run fun _ _ => false) = r' ∧
    Decided r ∧ Decided r' ∧ stepsOf r = some 1 ∧ stepsOf r' = some 1 := by
  obtain ⟨theory, made, h⟩ := Theory.exists_made "pairs" [("T", ⟨"T", [], ""⟩)]
    [("k", ⟨"k", Pairs.thing, [Pairs.thingVar "x", Pairs.thingVar "y"], ""⟩)] [swap]
    (P := fun theory =>
      (pose theory swap.left swap.right { depth := 1, maxSteps := 1 }).toOption.any (fun q =>
        (∀ r ∈ q.engine.theory.rules, r.KeepsVariables) ∧
          q.startTree = Pairs.pairTree (Pairs.varTree 3) (Pairs.varTree 4) ∧
          q.goalTree = Pairs.pairTree (Pairs.varTree 4) (Pairs.varTree 3) ∧ q.Unhindered ∧
          q.FirstReached 1) &&
      (pose theory swap.right swap.left { depth := 1, maxSteps := 1 }).toOption.any
        (·.Unhindered)) (by decide +kernel)
  obtain ⟨hq, hq'⟩ := Bool.and_eq_true_iff.mp h
  obtain ⟨q, hq, h⟩ := exists_ok_of_any hq
  obtain ⟨q', hq', hfree'⟩ := exists_ok_of_any hq'
  obtain ⟨hrules, hstart, hgoal, hfree, hfirst⟩ := of_decide_eq_true h
  have hback := back_of_pose hq hq'
  have hne : q.startTree ≠ .error := by
    rw [hstart]
    decide +kernel
  have hne' : q.goalTree ≠ .error := by
    rw [hgoal]
    decide +kernel
  obtain ⟨hdecided, hsteps⟩ :=
    (run_decided (compiled_of_pose made hq) hne' hfree (m := Id) fun _ _ => true).of_id
  obtain ⟨hdecided', -⟩ := (run_decided (compiled_of_pose made hq') (hback.goal ▸ hne)
    (of_decide_eq_true hfree') (m := Id) fun _ _ => false).of_id
  have hsame := (run_back made hq hq' hrules hne hne' (m := Id) (fun _ _ => true)
    fun _ _ => false).of_id hdecided hdecided' 1
  have hone := (hsteps 1).mpr hfirst
  exact ⟨q, q', _, _, hstart, hgoal, hback.start, hback.goal, rfl, rfl, hdecided, hdecided', hone,
    hsame.mp hone⟩

/-! ## Variables of inferred sorts -/

/-- A variable for objects. -/
def object (name : String) : Expr := .node .var name [.node .sort "Ob" []]

/-- Either of two constants may stand for the other. -/
def same : Rule := ⟨"same", "", .node .app "k" [], .node .app "c" []⟩

/-- **It is not enough that the declared sides of a rule have the same variables.** The constant `c`
has a sort that depends on an object `z`, which elaboration writes into the rule, on one side only.
So `c` rewrites to `k` in one step, and `k` rewrites to a constant over another object. -/
theorem run_back_constants : ∃ (theory : Theory) (q q' : Query) (t : Trace), theory.Made ∧
    theory.rules = [same] ∧ same.KeepsVariables ∧
    (∀ r ∈ q.engine.theory.rules, r.left.DistinctDigests ∧ r.right.DistinctDigests) ∧
    pose theory same.right same.left { depth := 1, maxSteps := 1 } = .ok q ∧
    pose theory same.left same.right { depth := 1, maxSteps := 1 } = .ok q' ∧
    q.startTree ≠ .error ∧ q.goalTree ≠ .error ∧
    Id.run (q.run fun _ _ => true) = .ok (.reachable t) ∧ t.steps.length = 1 ∧
    Id.run (q'.run fun _ _ => true) = .ok .unreachable := by
  obtain ⟨theory, made, h⟩ := Theory.exists_made "constants"
    [("Ob", ⟨"Ob", [], ""⟩), ("T", ⟨"T", [], ""⟩), ("P", ⟨"P", [object "x"], ""⟩)]
    [("k", ⟨"k", Pairs.thing, [], ""⟩), ("c", ⟨"c", .node .sort "P" [object "z"], [], ""⟩)]
    [same] (P := fun theory => theory.rules = [same] &&
      (pose theory same.right same.left { depth := 1, maxSteps := 1 }).toOption.any (fun q =>
        (∀ r ∈ q.engine.theory.rules, r.left.DistinctDigests ∧ r.right.DistinctDigests) ∧
          q.startTree ≠ .error ∧ q.goalTree ≠ .error ∧ q.Unhindered ∧ q.FirstReached 1) &&
      (pose theory same.left same.right { depth := 1, maxSteps := 1 }).toOption.any fun q =>
        q.Unhindered ∧ ∀ s ∈ q.states, s.1 ≠ q.goalTree) (by decide +kernel)
  rw [Bool.and_eq_true_iff, Bool.and_eq_true_iff] at h
  obtain ⟨⟨hraw, hq⟩, hq'⟩ := h
  obtain ⟨q, hq, h⟩ := exists_ok_of_any hq
  obtain ⟨hdigests, hstart, hgoal, hfree, hfirst⟩ := of_decide_eq_true h
  obtain ⟨q', hq', h'⟩ := exists_ok_of_any hq'
  obtain ⟨hfree', hnever⟩ := of_decide_eq_true h'
  have hback := back_of_pose hq hq'
  obtain ⟨-, hsteps⟩ :=
    (run_decided (compiled_of_pose made hq) hgoal hfree (m := Id) fun _ _ => true).of_id
  obtain ⟨t, ht, hone⟩ := exists_of_stepsOf ((hsteps 1).mpr hfirst)
  obtain ⟨hdecided', hsteps'⟩ := (run_decided (compiled_of_pose made hq') (hback.goal ▸ hstart) hfree'
    (m := Id) fun _ _ => true).of_id
  have hnone := Option.eq_none_iff_forall_ne_some.mpr fun n hn =>
    hnever _ ((hsteps' n).mp hn).1 rfl
  exact ⟨theory, q, q', t, made, of_decide_eq_true hraw, by decide +kernel, hdigests, hq, hq', hstart,
    hgoal, ht, hone, eq_unreachable hdecided' hnone⟩

end Query

end SortedRewriting
