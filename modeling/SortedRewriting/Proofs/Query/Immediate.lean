import SortedRewriting.Proofs.Engine.Injectivity
import SortedRewriting.Proofs.Engine.Sorting
import SortedRewriting.Proofs.Query.Verdict
import SortedRewriting.Proofs.Trace.Replay

/-!
# Goals that are reached without a step

A query is answered without a step when start and goal have the same tree. If the encoding tells
their symbols apart, start and goal are then the same term.

* **`Query.encoding_injective`**: elaborated terms with the same tree are equal, and so are start and
  goal of a query that is answered without a step, if no variable of one is called like a constant of
  the other.
* `Query.encoding_clash`: a variable and a constant of one name, as start and goal of a query that is
  answered without a step.
-/

namespace SortedRewriting

theorem length_framesFrom (k : Nat) (x : Tree) (as : List Application) :
    (framesFrom k x as).length = as.length + 1 := by
  induction as generalizing k x with
  | nil => rfl
  | cons a as ih => rw [framesFrom, List.length_cons, List.length_cons, ih]

namespace Query

variable {q : Query} {m : Type → Type} [Monad m] [LawfulMonad m]

/-- A trace without steps starts at the goal, which decodes. -/
theorem immediate_of_conclude {outcome : Outcome} (h : q.Answers outcome) {t : Trace}
    (ht : q.conclude outcome = .ok (.reachable t)) (hsteps : t.steps = []) :
    q.startTree = q.goalTree ∧ q.startTree ≠ .error := by
  cases outcome with
  | unreachable => cases ht
  | unknown budget depth => cases ht
  | reachable w =>
    obtain ⟨as, hshortest, rfl⟩ := h
    obtain ⟨t₁, hread, ht⟩ := bind_eq_ok_iff.mp ht
    obtain ⟨_, -, ht⟩ := bind_eq_ok_iff.mp ht
    cases ht
    obtain ⟨hrecords, hfirst, -, hterm⟩ := Trace.ofWitness_records (mapError_eq_ok_iff.mp hread)
    have hlength := hrecords.length_eq
    rw [hsteps, length_framesFrom] at hlength
    have hnil : as = [] := List.length_eq_zero_iff.mp (Nat.succ_inj.mp hlength)
    subst hnil
    have hstart : Shows (framesFrom 0 q.startTree []) 0 q.startTree := ⟨_, rfl, rfl⟩
    rw [hfirst.unique hstart] at hterm
    exact ⟨hshortest.derivation.eq_of_nil, Trace.ne_error_of_decodeTree hterm⟩

/-- **Elaborated terms with the same tree are equal**, for an elaborated theory, if no two of their
symbols have one code and no variable of one is called like a constant of the other. So are start and
goal of a query that is answered without a step. -/
theorem encoding_injective {theory elaborated : Theory} (made : theory.Made)
    (elaborate : theory.elaborate = .ok elaborated) :
    (∀ (b : CodeBook) (width : Nat) (t₁ t₂ : Expr), elaborated.elaborateExpr t₁ = .ok t₁ →
      elaborated.elaborateExpr t₂ = .ok t₂ → b.Distinguishes [t₁, t₂] → ¬ t₁.SharesName t₂ →
      ¬ t₂.SharesName t₁ → b.encode width t₁ = b.encode width t₂ → b.encode width t₁ ≠ .error →
      t₁ = t₂) ∧
    ∀ (start goal : Expr) (config : SearchConfig) (q : Query),
      pose theory start goal config = .ok q → q.engine.book.Distinguishes [q.start, q.goal] →
      ¬ q.start.SharesName q.goal → ¬ q.goal.SharesName q.start → ∀ save : Checker.Save m,
      Returns (fun r => ∀ t, r = .ok (.reachable t) → t.steps = [] → q.start = q.goal)
        (q.run save) := by
  constructor
  · intro b width t₁ t₂ ht₁ ht₂ hcodes hnames hnames' heq hne
    exact CodeBook.eq_of_encode_elaborated (made.elaborated elaborate)
      (Theory.elaborated_of_elaborate elaborate) ht₁ ht₂ hcodes hnames hnames' heq hne
  · intro start goal config q hq hcodes hnames hnames' save
    have he := compiled_of_pose made hq
    obtain ⟨engine, start', goal', hcompile, hstart, hgoal, rfl⟩ := exists_engine_of_pose hq
    obtain ⟨hmade, helaborated⟩ := he.made
    refine run_returns he (fun outcome houtcome t ht hsteps => ?_) (fun _ _ t ht => ?_) save
    · obtain ⟨heq, hne⟩ := immediate_of_conclude houtcome ht hsteps
      exact CodeBook.eq_of_encode_elaborated hmade helaborated hstart hgoal hcodes hnames hnames' heq
        hne
    · cases ht

/-- The pair of `x` and `y` and the pair of `y` and `x` have different trees, and a query from one to
the other is not answered without a step. -/
theorem encoding_injective_pair : ∃ (b : CodeBook) (q : Query),
    b.encode 3 (Pairs.pair (Pairs.thingVar "x") (Pairs.thingVar "y")) ≠
      b.encode 3 (Pairs.pair (Pairs.thingVar "y") (Pairs.thingVar "x")) ∧
    q.start = Pairs.pair (Pairs.thingVar "x") (Pairs.thingVar "y") ∧
    q.goal = Pairs.pair (Pairs.thingVar "y") (Pairs.thingVar "x") ∧
    Returns (fun r => ∀ t, r = .ok (.reachable t) → t.steps ≠ [])
      (Query.run (m := Id) q fun _ _ => true) := by
  let t₁ := Pairs.pair (Pairs.thingVar "x") (Pairs.thingVar "y")
  let t₂ := Pairs.pair (Pairs.thingVar "y") (Pairs.thingVar "x")
  obtain ⟨theory, made, h⟩ := Pairs.exists_theory (P := fun theory =>
      (theory.elaborate.toOption.any fun elaborated =>
        elaborated.elaborateExpr t₁ = .ok t₁ ∧ elaborated.elaborateExpr t₂ = .ok t₂ ∧
        (CodeBook.ofTheory elaborated).Distinguishes [t₁, t₂] ∧
        (CodeBook.ofTheory elaborated).encode 3 t₁ ≠ .error) &&
      (pose theory t₁ t₂ { depth := 1 }).toOption.any fun q =>
        q.start = t₁ ∧ q.goal = t₂ ∧ q.engine.book.Distinguishes [q.start, q.goal])
    (by decide +kernel)
  obtain ⟨htheory, hquery⟩ := Bool.and_eq_true_iff.mp h
  obtain ⟨elaborated, elaborate, h⟩ := exists_ok_of_any htheory
  obtain ⟨ht₁, ht₂, hcodes, hne⟩ := of_decide_eq_true h
  obtain ⟨q, hq, h⟩ := exists_ok_of_any hquery
  obtain ⟨hstart, hgoal, hbook⟩ := of_decide_eq_true h
  have hshares : ¬ t₁.SharesName t₂ := by decide
  have hshares' : ¬ t₂.SharesName t₁ := by decide
  have hdifferent : t₁ ≠ t₂ := by decide
  obtain ⟨hterms, hqueries⟩ := encoding_injective (m := Id) made elaborate
  refine ⟨.ofTheory elaborated, q, fun heq => ?_, hstart, hgoal, ?_⟩
  · exact hdifferent (hterms _ 3 t₁ t₂ ht₁ ht₂ hcodes hshares hshares' heq hne)
  · obtain ⟨⟨r, hr⟩, heq⟩ := hqueries t₁ t₂ _ q hq hbook (by rw [hstart, hgoal]; exact hshares)
      (by rw [hstart, hgoal]; exact hshares') fun _ _ => true
    refine ⟨⟨r, fun t ht hsteps => hdifferent ?_⟩, heq⟩
    have hsame := hr t ht hsteps
    rwa [hstart, hgoal] at hsame

/-! ## Constants and variables of one name -/

/-- If start and goal have the same tree, which decodes, a query that may not make any steps is
answered without a step. -/
theorem immediate_of_exact {r : Except Failure SearchOutcome} (hr : q.Exact r)
    (hbound : q.config.maxSteps = 0) (hbudget : 1 ≤ q.config.maxStates)
    (hpath : q.config.witnessPath? = none) (hgoal : q.startTree = q.goalTree) {term : Expr}
    (hterm : q.engine.book.decode q.startTree = .ok term) :
    ∃ t, r = .ok (.reachable t) ∧ t.steps = [] := by
  have hnil : q.engine.Derivation 0 q.startTree [] q.goalTree := hgoal ▸ .nil
  have hempty : ∀ {as : List Application}, as.length ≤ q.config.maxSteps → as = [] := fun h =>
    List.length_eq_zero_iff.mp (Nat.le_zero.mp (hbound ▸ h))
  unfold Exact at hr
  split at hr
  · rename_i t
    exact ⟨t, rfl, List.map_eq_nil_iff.mp (hempty hr.2.2.within)⟩
  · exact absurd (hr [] hnil) (Nat.not_lt_zero _)
  · -- the start is the only state
    obtain ⟨states, hnodup, hover, hall⟩ := hr
    have hsame : ∀ state ∈ states, state = (q.startTree, 0) := by
      rintro ⟨x, n⟩ hstate
      obtain ⟨as, hder, hwithin, hn⟩ := hall _ hstate
      cases hempty hwithin
      exact Prod.ext hder.eq_of_nil.symm hn
    match states with
    | [] => exact absurd hover (Nat.not_lt_zero _)
    | [_] => exact absurd hover (Nat.not_lt.mpr hbudget)
    | s :: s' :: _ =>
      have heq : s = s' := (hsame s (by simp)).trans (hsame s' (by simp)).symm
      exact absurd (heq ▸ List.mem_cons_self) (List.nodup_cons.mp hnodup).1
  · obtain ⟨as, hshortest, herror | hundecoded⟩ := hr
    · rw [hterm] at herror
      cases herror
    · cases hempty hshortest.within
      obtain ⟨a, ha, -⟩ := hundecoded
      exact absurd ha List.not_mem_nil
  · exact absurd hpath hr.1
  · exact hr.elim

/-- **A variable may have the tree of a constant.** Both are elaborated, and the codes of their
symbols are distinct; still the query from the variable to the constant of the same name is answered
without a step. -/
theorem encoding_clash : ∃ (theory elaborated : Theory) (t₁ t₂ : Expr) (config : SearchConfig)
    (q : Query) (t : Trace), theory.Made ∧ theory.elaborate = .ok elaborated ∧
    elaborated.elaborateExpr t₁ = .ok t₁ ∧ elaborated.elaborateExpr t₂ = .ok t₂ ∧
    (CodeBook.ofTheory elaborated).Distinguishes [t₁, t₂] ∧
    (CodeBook.ofTheory elaborated).encode 2 t₁ = (CodeBook.ofTheory elaborated).encode 2 t₂ ∧
    (CodeBook.ofTheory elaborated).encode 2 t₁ ≠ .error ∧ t₁ ≠ t₂ ∧
    pose theory t₁ t₂ config = .ok q ∧ q.start = t₁ ∧ q.goal = t₂ ∧
    q.engine.book.Distinguishes [q.start, q.goal] ∧
    Query.run (m := Id) q (fun _ _ => true) = .ok (.reachable t) ∧ t.steps = [] := by
  let S : Expr := .node .sort "P" []
  let t₁ : Expr := .node .var "c" [S]
  let t₂ : Expr := .node .app "c" [S]
  let config : SearchConfig := { depth := 1, maxSteps := 0 }
  obtain ⟨theory, made, h⟩ := Theory.exists_made "points" [("P", ⟨"P", [], ""⟩)]
    [("c", ⟨"c", S, [], ""⟩)] [] (P := fun theory =>
      (theory.elaborate.toOption.any fun elaborated =>
        elaborated.elaborateExpr t₁ = .ok t₁ ∧ elaborated.elaborateExpr t₂ = .ok t₂ ∧
        (CodeBook.ofTheory elaborated).Distinguishes [t₁, t₂] ∧
        (CodeBook.ofTheory elaborated).encode 2 t₁ = (CodeBook.ofTheory elaborated).encode 2 t₂ ∧
        (CodeBook.ofTheory elaborated).encode 2 t₁ ≠ .error) &&
      (pose theory t₁ t₂ config).toOption.any fun q =>
        q.start = t₁ ∧ q.goal = t₂ ∧ q.engine.book.Distinguishes [q.start, q.goal] ∧
        q.config = config ∧ q.startTree = q.goalTree ∧ q.goalTree ≠ .error ∧
        q.engine.book.decode q.startTree = .ok t₂)
    (by decide +kernel)
  obtain ⟨htheory, hquery⟩ := Bool.and_eq_true_iff.mp h
  obtain ⟨elaborated, elaborate, h⟩ := exists_ok_of_any htheory
  obtain ⟨ht₁, ht₂, hcodes, heq, hne⟩ := of_decide_eq_true h
  obtain ⟨q, hq, h⟩ := exists_ok_of_any hquery
  obtain ⟨hstart, hgoal, hbook, hconfig, htree, herror, hdecode⟩ := of_decide_eq_true h
  have he := compiled_of_pose made hq
  have hanswer := run_returns (m := Id) he (fun outcome => exact_conclude he herror)
    (fun hpath hshortest => ⟨hpath, hshortest⟩) fun _ _ => true
  obtain ⟨⟨r, hexact⟩, hr⟩ := hanswer
  obtain ⟨t, ht, hsteps⟩ := immediate_of_exact hexact (by rw [hconfig]) (by rw [hconfig]; decide)
    (by rw [hconfig]) htree hdecode
  exact ⟨theory, elaborated, t₁, t₂, config, q, t, made, elaborate, ht₁, ht₂, hcodes, heq, hne,
    by decide, hq, hstart, hgoal, hbook, hr.symm.trans ht, hsteps⟩

end Query

end SortedRewriting
