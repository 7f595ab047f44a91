import SortedRewriting.Proofs.Engine.Totality
import SortedRewriting.Proofs.Trace.Derivation
import SortedRewriting.Proofs.Transition.Checker
import SortedRewriting.Query

/-!
# The system that a query checks

* `Query.prepare_eq`: the checker of a query takes all functions of the engine.
* `Query.system_spec`: what the values of the system and its target mean.
* **`Query.check_eq_search`**: the check of a query is a search of a graph whose states are a tree
  and a step counter and whose choices are a rule and a path (`Query.Searches`); its steps are
  rewrites of the engine, and neither they nor the test for the goal fail.
-/

namespace SortedRewriting

open Build (Yields)
open Term (Means HasType)

namespace Query

/-- The checker of a query with the bounds and the functions of its engine. -/
def prepared (q : Query) (c : Checker) : Checker :=
  { c with bounds? := some q.engine.bounds, functions := q.engine.functions }

/-- A checker without functions takes all functions of the engine. -/
theorem prepare_eq {q : Query} (he : q.engine.Compiled) {c : Checker}
    (hc : c.functions = .empty) : q.prepare c = (q.prepared c, none) := by
  unfold prepare
  rw [he.defineAll_eq (c := c.declare q.engine.bounds) rfl hc]
  rfl

/-! ## The meaning of the system -/

/-- What the values of the system and its target mean, in any setting. -/
structure SystemSpec (q : Query) (s : TransitionSystem) : Prop where
  states_eq : s.states = [(RunVariable.tree, .tree), (RunVariable.step, .int)]
  inputs_eq : s.inputs = [(RunVariable.rule, .rule), (RunVariable.path, .path)]
  initial : ∀ S, ∃ x n, s.init = .ofList [(RunVariable.tree, x), (RunVariable.step, n)] ∧
    Means S x (.tree q.startTree) ∧ Means S n (.int 0)
  next : ∀ S x n tag p y, S.Binds RunVariable.tree (.tree x) → S.Binds RunVariable.step (.int n) →
    S.Binds RunVariable.rule (.rule tag) → S.Binds RunVariable.path (.path p) →
    Calls S.functions S.call Engine.rewriteName [.tree x, .rule tag, .path p, .int n] (.tree y) →
    ∃ x' n', s.next = .ofList [(RunVariable.tree, x'), (RunVariable.step, n')] ∧
      Means S x' (.tree y) ∧ Means S n' (.int (n + 1))
  target : ∀ S x, S.Binds RunVariable.tree (.tree x) →
    ∃ t, s.target? = some t ∧ Means S t (.bool (decide (x = q.goalTree)))

theorem system_spec (q : Query) : q.SystemSpec q.system := by
  refine ⟨rfl, rfl, fun S => ?_, fun S x n tag p y hx hn htag hp hcall => ?_, fun S x hx => ?_⟩
  · have h : Yields q.buildSystem fun s => ∃ x n,
        s.init = .ofList [(RunVariable.tree, x), (RunVariable.step, n)] ∧
          Means S x (.tree q.startTree) ∧ Means S n (.int 0) := by
      unfold buildSystem
      refine (Build.yields_var _ _).bind fun _ _ => ?_
      refine (Build.yields_var _ _).bind fun _ _ => ?_
      refine (Build.yields_var _ _).bind fun _ _ => ?_
      refine (Build.yields_var _ _).bind fun _ _ => ?_
      refine (Build.yields_tree (Means S) _).bind fun start hstart => ?_
      refine (Build.yields_int (Means S) _).bind fun zero hzero => ?_
      exact fun _ => ⟨start, zero, rfl, hstart, hzero⟩
    exact h.result
  · have h : Yields q.buildSystem fun s => ∃ x' n',
        s.next = .ofList [(RunVariable.tree, x'), (RunVariable.step, n')] ∧
          Means S x' (.tree y) ∧ Means S n' (.int (n + 1)) := by
      unfold buildSystem
      refine (Build.yields_var _ _).bind fun xvar hxvar => ?_
      refine (Build.yields_var _ _).bind fun nvar hnvar => ?_
      refine (Build.yields_var _ _).bind fun rvar hrvar => ?_
      refine (Build.yields_var _ _).bind fun pvar hpvar => ?_
      refine (Build.yields_tree (Means S) _).bind fun _ _ => ?_
      refine (Build.yields_int (Means S) _).bind fun _ _ => ?_
      have hargs : List.Forall₂ (Means S) [xvar, rvar, pvar, nvar]
          [.tree x, .rule tag, .path p, .int n] :=
        .cons (hxvar S _ rfl hx) (.cons (hrvar S _ rfl htag) (.cons (hpvar S _ rfl hp)
          (.cons (hnvar S _ rfl hn) .nil)))
      refine (Build.yields_apply hcall hargs).bind fun next hnext => ?_
      refine (Build.yields_int (Means S) 1).bind fun one hone => ?_
      refine (Build.yields_add (hnvar S _ rfl hn) hone).bind fun succ hsucc => ?_
      exact fun _ => ⟨next, succ, rfl, hnext, hsucc⟩
    exact h.result
  · have h : Yields q.buildSystem fun s => ∃ t, s.target? = some t ∧
        Means S t (.bool (decide (x = q.goalTree))) := by
      unfold buildSystem
      refine (Build.yields_var _ _).bind fun xvar hxvar => ?_
      refine (Build.yields_var _ _).bind fun _ _ => ?_
      refine (Build.yields_var _ _).bind fun _ _ => ?_
      refine (Build.yields_var _ _).bind fun _ _ => ?_
      refine Yields.bind (P := fun _ => True) (fun _ => trivial) fun _ _ => ?_
      refine Yields.bind (P := fun _ => True) (fun _ => trivial) fun _ _ => ?_
      refine Yields.bind (P := fun _ => True) (fun _ => trivial) fun _ _ => ?_
      refine Yields.bind (P := fun _ => True) (fun _ => trivial) fun _ _ => ?_
      refine Yields.bind (P := fun _ => True) (fun _ => trivial) fun _ _ => ?_
      refine (Build.yields_tree (Means S) _).bind fun goal hgoal => ?_
      refine (Build.yields_eq (hxvar S _ rfl hx) hgoal rfl).bind fun target htarget => ?_
      exact .pure ⟨target, rfl, by simpa using htarget⟩
    exact h.result

/-! ## The searched graph -/

/-- The state of the graph: a tree and a step counter. -/
def stateOf (x : Tree) (n : Int64) : List Value := [.tree x, .int n]

/-- The choice in the graph: a rule and a path. -/
def choiceOf (tag : RuleTag) (p : Path) : List Value := [.rule tag, .path p]

/-- The graph applies rules of the engine at paths within its bounds. -/
structure Searches (q : Query) (g : Graph (List Value) (List Value) CheckerError) : Prop where
  start : g.start = stateOf q.startTree 0
  choices : ∀ c, c ∈ g.choices ↔
    ∃ tag ∈ q.engine.bounds.ruleTags, ∃ p ∈ q.engine.bounds.paths, c = choiceOf tag p
  step : ∀ x n tag p y, q.engine.rewrite x tag p n = .ok y →
    g.step (stateOf x n) (choiceOf tag p) = .ok (stateOf y (n + 1))
  isTarget : ∀ x n, g.isTarget (stateOf x n) = .ok (decide (x = q.goalTree))

variable {q : Query} {c : Checker}

/-- The setting in which the terms of the system are read. -/
def settingOf (q : Query) (env : Env) : Setting :=
  ⟨.of q.engine.functions.defs, contextOf (q.system.states ++ q.system.inputs),
    q.engine.functions.call, env⟩

theorem system_next (he : q.engine.Compiled) {x y : Tree} {n : Int64} {tag : RuleTag} {p : Path}
    (h : q.engine.rewrite x tag p n = .ok y) : ∃ x' n',
      q.system.next = .ofList [(RunVariable.tree, x'), (RunVariable.step, n')] ∧
      Means (q.settingOf (Checker.bindBoth q.system (stateOf x n) (choiceOf tag p))) x' (.tree y) ∧
      Means (q.settingOf (Checker.bindBoth q.system (stateOf x n) (choiceOf tag p))) n'
        (.int (n + 1)) := by
  have hcalls := he.calls_rewrite x tag p n
  rw [he.rewrite_eq] at h
  cases h
  exact q.system_spec.next _ x n tag p _ ⟨rfl, rfl⟩ ⟨rfl, rfl⟩ ⟨rfl, rfl⟩ ⟨rfl, rfl⟩ hcalls

theorem system_target (x : Tree) (n : Int64) : ∃ t, q.system.target? = some t ∧
    Means (q.settingOf (Checker.bind q.system.states (stateOf x n))) t
      (.bool (decide (x = q.goalTree))) :=
  q.system_spec.target _ x ⟨rfl, rfl⟩

/-- **The system of a query passes all checks.** -/
theorem validate_system (he : q.engine.Compiled) :
    ∃ target, q.system.validate = .ok target ∧ q.system.target? = some target := by
  obtain ⟨x, n, hinit, hx, hn⟩ := q.system_spec.initial (q.settingOf ∅)
  obtain ⟨x', n', hnext, hx', hn'⟩ := system_next he (he.rewrite_error ⟨0, .forward⟩ [] 0)
  obtain ⟨target, htarget, ht⟩ := q.system_target .error 0
  refine ⟨target, ?_, htarget⟩
  have hvalue : ∀ (name : String) (ty : Ty) (phase : Phase) (t : Term),
      (q.system.values phase)[name]? = some t → t.ty = ty →
        q.system.checkValue name ty phase = .ok () := by
    intro name ty phase t hget hty
    unfold TransitionSystem.checkValue TransitionSystem.valueOf
    rw [hget]
    exact if_pos hty
  have hinitial : q.system.values .initial = q.system.init := rfl
  have hnexts : q.system.values .next = q.system.next := rfl
  have h₁ := hvalue RunVariable.tree .tree .initial x (by rw [hinitial, hinit]; rfl) hx.typed.ty_eq
  have h₂ := hvalue RunVariable.tree .tree .next x' (by rw [hnexts, hnext]; rfl) hx'.typed.ty_eq
  have h₃ := hvalue RunVariable.step .int .initial n (by rw [hinitial, hinit]; rfl) hn.typed.ty_eq
  have h₄ := hvalue RunVariable.step .int .next n' (by rw [hnexts, hnext]; rfl) hn'.typed.ty_eq
  have hnames : TransitionSystem.firstRepeated [] ((q.system.states ++ q.system.inputs).map (·.1)) =
      none := by
    rw [q.system_spec.states_eq, q.system_spec.inputs_eq]
    decide
  unfold TransitionSystem.validate
  rw [hnames, q.system_spec.states_eq]
  simp only [List.forM, h₁, h₂, h₃, h₄, bind, Except.bind, pure, Except.pure]
  unfold TransitionSystem.checkTarget
  rw [htarget]
  exact if_pos ht.typed.ty_eq

theorem choice_iff {b : Bounds} {inputs : List Value} : Checker.Choice b q.system inputs ↔
    ∃ tag ∈ b.ruleTags, ∃ p ∈ b.paths, inputs = choiceOf tag p := by
  unfold Checker.Choice
  rw [q.system_spec.inputs_eq]
  constructor
  · intro h
    match inputs, h with
    | [.rule tag, .path p], .cons htag (.cons hp .nil) => exact ⟨tag, htag, p, hp, rfl⟩
  · rintro ⟨tag, htag, p, hp, rfl⟩
    exact .cons htag (.cons hp .nil)

/-- A state takes the values that the terms of a phase mean. -/
theorem takes_of_means {phase : Phase} {env : Env} {x' n' : Term} {x : Tree} {n : Int64}
    (hvalues : q.system.values phase = .ofList [(RunVariable.tree, x'), (RunVariable.step, n')])
    (hx : Means (q.settingOf env) x' (.tree x)) (hn : Means (q.settingOf env) n' (.int n)) :
    (q.prepared c).Takes q.system phase env (stateOf x n) := by
  unfold Checker.Takes
  rw [q.system_spec.states_eq, hvalues]
  exact .cons ⟨x', rfl, hx.value⟩ (.cons ⟨n', rfl, hn.value⟩ .nil)

/-- **The check of a query is a search of a graph of rewrites.** -/
theorem check_eq_search (he : q.engine.Compiled) (c : Checker) (bound : Nat) :
    ∃ g, q.Searches g ∧ (q.prepared c).check q.system bound =
      (g.search c.maxStates bound).map (Checker.outcomeOf (q.prepared c) q.system) := by
  obtain ⟨target, hvalid, htarget⟩ := validate_system he
  obtain ⟨choices, hchoices⟩ :
      ∃ choices, Checker.inputCombinations q.engine.bounds q.system = .ok choices := ⟨_, rfl⟩
  have hstart : (q.prepared c).stateValues q.system .initial ∅ = .ok (stateOf q.startTree 0) := by
    obtain ⟨x, n, hinit, hx, hn⟩ := q.system_spec.initial (q.settingOf ∅)
    exact Checker.stateValues_eq_ok_iff.mpr (takes_of_means hinit hx hn)
  refine ⟨(q.prepared c).graph q.system target (stateOf q.startTree 0) choices, ?_,
    Checker.check_eq_search rfl hvalid hchoices hstart⟩
  refine ⟨rfl, fun inputs => ?_, fun x n tag p y h => ?_, fun x n => ?_⟩
  · exact (Checker.mem_inputCombinations hchoices inputs).trans choice_iff
  · obtain ⟨x', n', hnext, hx', hn'⟩ := system_next he h
    exact Checker.stateValues_eq_ok_iff.mpr (takes_of_means hnext hx' hn')
  · obtain ⟨t, ht, hmeans⟩ := q.system_target x n
    rw [htarget] at ht
    cases ht
    show (q.prepared c).holds q.system target (stateOf x n) = _
    have hvalue : target.valueIn (q.prepared c).functions.call
        (Checker.bind q.system.states (stateOf x n)) = .ok (.bool (decide (x = q.goalTree))) :=
      hmeans.value
    unfold Checker.holds
    rw [FunctionTable.eval_eq_valueIn, hvalue]
    rfl

end Query

end SortedRewriting
