import SortedRewriting.Proofs.Lists
import SortedRewriting.Proofs.Symbolic.Memo
import SortedRewriting.Proofs.Transition.Search
import SortedRewriting.Transition.Checker

/-!
# The checker decides bounded reachability

A run of a transition system (`Checker.Run`) starts at the values of its initial terms; each next
state holds the values of the next terms under the state before it and one admissible value for
each input (`Checker.Choice`). The steps of a run are listed in order, each a state with the inputs
chosen there. Values of terms are plain ones, without memo (`Term.valueIn`).

`graph_run_iff` says that these are the runs of the graph that `Checker.check` searches.

* **`check_decides`**: the frames of a witness are a shortest run to the target, an `unreachable`
  target has no run within the bound, and `unknown` means more states within the bound than the
  budget.
-/

namespace SortedRewriting.Checker

/-! ## Runs of a transition system -/

/-- The values that an input of a type ranges over. -/
def Admits (b : Bounds) : Ty → Value → Prop
  | .path, .path p => p ∈ b.paths
  | .rule, .rule r => r ∈ b.ruleTags
  | .bool, .bool _ => True
  | _, _ => False

/-- One admissible value for each input variable. -/
def Choice (b : Bounds) (s : TransitionSystem) (inputs : List Value) : Prop :=
  List.Forall₂ (fun input v => Admits b input.2 v) s.inputs inputs

/-- The state variables take the values of their terms in an environment. -/
def Takes (c : Checker) (s : TransitionSystem) (phase : Phase) (env : Env) (state : List Value) :
    Prop :=
  List.Forall₂ (fun x v => ∃ t, (s.values phase)[x.1]? = some t ∧
    t.valueIn c.functions.call env = .ok v) s.states state

/-- The values of all variables in a step: those of a state, and the inputs chosen there. -/
def stepEnv (s : TransitionSystem) (state inputs : List Value) : Env :=
  bind (s.states ++ s.inputs) (state ++ inputs)

/-- A run: its steps in order, each a state with the inputs chosen there, and its last state. -/
inductive Run (c : Checker) (b : Bounds) (s : TransitionSystem) :
    List (List Value × List Value) → List Value → Prop
  | start {state} (init : Takes c s .initial ∅ state) : Run c b s [] state
  | step {steps state inputs state'} (run : Run c b s steps state) (choice : Choice b s inputs)
      (next : Takes c s .next (stepEnv s state inputs) state') :
      Run c b s (steps ++ [(state, inputs)]) state'

/-- The target holds in a state. -/
def Satisfies (c : Checker) (s : TransitionSystem) (state : List Value) : Prop :=
  ∃ t, s.target? = some t ∧ t.valueIn c.functions.call (bind s.states state) = .ok (.bool true)

/-- What an answer says about the runs of the system. -/
def Decides (c : Checker) (b : Bounds) (s : TransitionSystem) (bound : Nat) : Outcome → Prop
  | .reachable w => ∃ steps last, c.Run b s steps last ∧ c.Satisfies s last ∧
      w.frames = steps.map (fun x => ⟨bind s.states x.1, bind s.inputs x.2⟩) ++
        [⟨bind s.states last, ∅⟩] ∧
      w.length ≤ bound ∧
      ∀ steps' last', c.Run b s steps' last' → c.Satisfies s last' → w.length ≤ steps'.length
  | .unreachable => ∀ steps last, c.Run b s steps last → steps.length ≤ bound → ¬ c.Satisfies s last
  | .unknown _ _ => ∃ states : List (List Value), states.Nodup ∧ c.maxStates < states.length ∧
      ∀ state ∈ states, ∃ steps, c.Run b s steps state ∧ steps.length ≤ bound

variable {c : Checker} {b : Bounds} {s : TransitionSystem}

/-! ## Inputs -/

theorem mem_inputDomain {name : String} {ty : Ty} {values : List Value}
    (h : inputDomain b name ty = .ok values) (v : Value) : v ∈ values ↔ Admits b ty v := by
  cases ty with
  | tree => exact nomatch h
  | int => exact nomatch h
  | path =>
    cases h
    cases v <;> simp [Admits]
  | rule =>
    cases h
    cases v <;> simp [Admits]
  | bool =>
    cases h
    cases v <;> simp [Admits]

theorem mem_combinations_iff {α : Type} {lists : List (List α)} {xs : List α} :
    xs ∈ combinations lists ↔ List.Forall₂ (fun list x => x ∈ list) lists xs := by
  induction lists generalizing xs with
  | nil => simp [combinations]
  | cons list lists ih =>
    rw [combinations, List.mem_flatMap, List.forall₂_cons_left_iff]
    constructor
    · rintro ⟨x, hx, h⟩
      obtain ⟨rest, hrest, rfl⟩ := List.mem_map.mp h
      exact ⟨x, rest, hx, ih.mp hrest, rfl⟩
    · rintro ⟨x, rest, hx, hrest, rfl⟩
      exact ⟨x, hx, List.mem_map.mpr ⟨rest, ih.mpr hrest, rfl⟩⟩

/-- The combinations that the checker tries are the admissible choices. -/
theorem mem_inputCombinations {choices : List (List Value)}
    (h : inputCombinations b s = .ok choices) (inputs : List Value) :
    inputs ∈ choices ↔ Choice b s inputs := by
  unfold inputCombinations at h
  obtain ⟨domains, hd, h⟩ := bind_eq_ok_iff.mp h
  cases h
  rw [mem_combinations_iff]
  have hdomains := mapM_eq_ok_iff.mp hd
  unfold Choice
  clear hd h
  generalize s.inputs = vars at hdomains
  induction hdomains generalizing inputs with
  | nil => simp
  | cons hv _ ih =>
    rw [List.forall₂_cons_left_iff, List.forall₂_cons_left_iff]
    simp only [mem_inputDomain hv, ih]

/-! ## States -/

theorem valueOf_eq_ok_iff {phase : Phase} {name : String} {t : Term} :
    s.valueOf phase name = .ok t ↔ (s.values phase)[name]? = some t := by
  unfold TransitionSystem.valueOf
  split
  · rename_i u hu
    rw [hu]
    simp
  · rename_i hu
    rw [hu]
    simp

/-- The checker computes the values that the state variables take. -/
theorem stateValues_eq_ok_iff {phase : Phase} {env : Env} {state : List Value} :
    c.stateValues s phase env = .ok state ↔ c.Takes s phase env state := by
  unfold stateValues Takes
  rw [mapM_eq_ok_iff]
  apply Eq.to_iff
  congr 1
  funext x v
  apply propext
  obtain ⟨name, ty⟩ := x
  simp only [← valueOf_eq_ok_iff, FunctionTable.eval_eq_valueIn]
  cases s.valueOf phase name with
  | error e => simp
  | ok t =>
    simp only [Except.ok.injEq, exists_eq_left']
    cases t.valueIn c.functions.call env <;> simp

theorem takes_length {phase : Phase} {env : Env} {state : List Value}
    (h : c.Takes s phase env state) : s.states.length = state.length := h.length_eq

/-- State and input variables together, as the checker binds them. -/
theorem bindBoth_eq_stepEnv {state inputs : List Value} (h : s.states.length = state.length) :
    bindBoth s state inputs = stepEnv s state inputs := by
  unfold bindBoth stepEnv bind
  rw [List.map_append, List.zip_append (by rw [List.length_map, h]),
    Std.ExtTreeMap.ofList_eq_insertMany_empty, Std.ExtTreeMap.ofList_eq_insertMany_empty,
    Std.ExtTreeMap.insertMany_append]

theorem holds_eq_ok_true_iff {target : Term} (ht : s.target? = some target) {state : List Value} :
    c.holds s target state = .ok true ↔ c.Satisfies s state := by
  unfold holds Satisfies
  simp only [ht, Option.some.injEq, exists_eq_left', FunctionTable.eval_eq_valueIn]
  cases target.valueIn c.functions.call (bind s.states state) with
  | error e => simp [Except.bind]
  | ok v => cases v <;> simp [Except.bind, Value.asBool]

/-! ## Runs of the searched graph -/

theorem Run.length_eq {steps : List (List Value × List Value)} {state : List Value}
    (h : c.Run b s steps state) : s.states.length = state.length := by
  cases h with
  | start init => exact takes_length init
  | step _ _ next => exact takes_length next

/-- **The runs of the searched graph are the runs of the system**, latest step first. -/
theorem graph_run_iff {target : Term} {start : List Value} {choices : List (List Value)}
    (hstart : c.stateValues s .initial ∅ = .ok start)
    (hchoices : inputCombinations b s = .ok choices) {trail : List (List Value × List Value)}
    {state : List Value} :
    (c.graph s target start choices).Run trail state ↔ c.Run b s trail.reverse state := by
  constructor
  · intro h
    induction h with
    | start => exact .start (stateValues_eq_ok_iff.mp hstart)
    | step _ hchoice hnext ih =>
      rw [List.reverse_cons]
      refine .step ih ((mem_inputCombinations hchoices _).mp hchoice) ?_
      rw [← bindBoth_eq_stepEnv ih.length_eq]
      exact stateValues_eq_ok_iff.mp hnext
  · intro h
    generalize hsteps : trail.reverse = steps at h
    induction h generalizing trail with
    | start init =>
      rw [List.reverse_eq_nil_iff.mp hsteps]
      have hinit := stateValues_eq_ok_iff.mpr init
      rw [hstart] at hinit
      cases hinit
      exact .start
    | @step steps state inputs _ run choice next ih =>
      rw [show trail = (state, inputs) :: steps.reverse by
        rw [← List.reverse_reverse trail, hsteps, List.reverse_append]; rfl]
      refine .step (ih (List.reverse_reverse _)) ((mem_inputCombinations hchoices _).mpr choice) ?_
      rw [← bindBoth_eq_stepEnv run.length_eq] at next
      exact stateValues_eq_ok_iff.mpr next

/-- A system that passes the checks has a target. -/
theorem target_of_validate {target : Term} (h : s.validate = .ok target) :
    s.target? = some target := by
  unfold TransitionSystem.validate at h
  split at h
  · cases h
  · obtain ⟨_, -, h⟩ := bind_eq_ok_iff.mp h
    unfold TransitionSystem.checkTarget at h
    split at h
    · cases h
    · rename_i t ht
      split at h
      · cases h
        exact ht
      · cases h

/-! ## The answer -/

/-- The answer of the checker to the result of its search. -/
def outcomeOf (c : Checker) (s : TransitionSystem) :
    SearchResult (List Value) (List Value) → Outcome
  | .found v => .reachable (witnessOf s v)
  | .exhausted => .unreachable
  | .overBudget depth => .unknown c.maxStates depth

/-- A check of a valid system is the search of its graph. -/
theorem check_eq_search {bound : Nat} {target : Term} {start : List Value}
    {choices : List (List Value)} (hb : c.bounds? = some b) (hvalid : s.validate = .ok target)
    (hchoices : inputCombinations b s = .ok choices)
    (hstart : c.stateValues s .initial ∅ = .ok start) :
    c.check s bound =
      ((c.graph s target start choices).search c.maxStates bound).map (outcomeOf c s) := by
  unfold check
  rw [hb]
  simp only [hvalid, hchoices, hstart, ofSystem]
  show ((c.graph s target start choices).search c.maxStates bound >>= _) = _
  cases (c.graph s target start choices).search c.maxStates bound with
  | error e => rfl
  | ok result => cases result <;> rfl

/-- Only a valid system with input values and a start is answered. -/
theorem valid_of_check {bound : Nat} {outcome : Outcome} (hb : c.bounds? = some b)
    (h : c.check s bound = .ok outcome) :
    ∃ target choices start, s.validate = .ok target ∧ inputCombinations b s = .ok choices ∧
      c.stateValues s .initial ∅ = .ok start := by
  unfold check at h
  rw [hb] at h
  cases hvalid : s.validate with
  | error e => simp only [hvalid, ofSystem] at h; exact nomatch h
  | ok target =>
    cases hchoices : inputCombinations b s with
    | error e => simp only [hvalid, hchoices, ofSystem] at h; exact nomatch h
    | ok choices =>
      cases hstart : c.stateValues s .initial ∅ with
      | error e => simp only [hvalid, hchoices, hstart, ofSystem] at h; exact nomatch h
      | ok start => exact ⟨target, choices, start, rfl, rfl, rfl⟩

/-- What the runs of the searched graph decide, the runs of the system do. -/
theorem decides_of_verdict {target : Term} {start : List Value} {choices : List (List Value)}
    {bound : Nat} (hvalid : s.validate = .ok target)
    (hchoices : inputCombinations b s = .ok choices)
    (hstart : c.stateValues s .initial ∅ = .ok start) {result : SearchResult _ _}
    (hverdict : (c.graph s target start choices).Verdict c.maxStates bound (.ok result)) :
    c.Decides b s bound (outcomeOf c s result) := by
  have run_of : ∀ {trail state}, (c.graph s target start choices).Run trail state →
      c.Run b s trail.reverse state := (graph_run_iff hstart hchoices).mp
  have run_to : ∀ {steps state}, c.Run b s steps state →
      (c.graph s target start choices).Run steps.reverse state := fun hrun =>
    (graph_run_iff hstart hchoices).mpr (by rwa [List.reverse_reverse])
  have target_iff : ∀ {state}, (c.graph s target start choices).isTarget state = .ok true ↔
      c.Satisfies s state := holds_eq_ok_true_iff (target_of_validate hvalid)
  cases result with
  | found v =>
    obtain ⟨hrun, hlen, hv, hshortest⟩ := hverdict
    have hlength : (witnessOf s v).length = v.trail.length := by simp [Witness.length, witnessOf]
    refine ⟨v.trail.reverse, v.state, run_of hrun, target_iff.mp hv, rfl, by rwa [hlength],
      fun steps' last' hrun' hsat => ?_⟩
    rw [hlength, ← steps'.length_reverse]
    exact hshortest _ _ (run_to hrun') (target_iff.mpr hsat)
  | exhausted =>
    intro steps last hrun hlen hsat
    exact hverdict _ _ (run_to hrun) (by rwa [List.length_reverse]) (target_iff.mpr hsat)
  | overBudget depth =>
    obtain ⟨states, hnodup, hlen, hall⟩ := hverdict
    refine ⟨states, hnodup, hlen, fun state hs => ?_⟩
    obtain ⟨trail, hrun, hbound⟩ := hall state hs
    exact ⟨trail.reverse, run_of hrun, by rwa [List.length_reverse]⟩

/-- **The checker decides bounded reachability.** -/
theorem check_decides {bound : Nat} {outcome : Outcome} (hb : c.bounds? = some b)
    (h : c.check s bound = .ok outcome) : c.Decides b s bound outcome := by
  obtain ⟨target, choices, start, hvalid, hchoices, hstart⟩ := valid_of_check hb h
  rw [check_eq_search hb hvalid hchoices hstart] at h
  have hverdict := (c.graph s target start choices).search_verdict c.maxStates bound
  cases hsearch : (c.graph s target start choices).search c.maxStates bound with
  | error e => rw [hsearch] at h; exact nomatch h
  | ok result =>
    rw [hsearch] at h hverdict
    cases h
    exact decides_of_verdict hvalid hchoices hstart hverdict

/-! ## A counter -/

/-- The target of the counter: `n = 1`. -/
def counterTarget : Term := .eq 6 (.var 1 "n" .int) (.const 5 (.int 1))

/-- A number that a switch lets grow by one. -/
def counter : TransitionSystem where
  states := [("n", .int)]
  inputs := [("go", .bool)]
  init := .ofList [("n", Term.const 0 (.int 0))]
  next := .ofList [("n", Term.ite 4 (.var 2 "go" .bool)
    (.arith 3 .add (.var 1 "n" .int) (.const 5 (.int 1))) (.var 1 "n" .int))]
  target? := some counterTarget

/-- A checker with declared bounds and no functions. -/
def counterChecker : Checker := (ofBudget 10).declare ⟨1, 1, 1⟩

theorem counter_init : counterChecker.stateValues counter .initial ∅ = .ok [.int 0] := by
  simp only [stateValues, FunctionTable.eval_eq_valueIn]
  rfl

theorem counter_next (go : Bool) :
    counterChecker.stateValues counter .next (bindBoth counter [.int 0] [.bool go]) =
      .ok [.int (if go then 1 else 0)] := by
  simp only [stateValues, FunctionTable.eval_eq_valueIn]
  cases go <;> rfl

theorem counter_holds : counterChecker.holds counter counterTarget [.int 0] = .ok false ∧
    counterChecker.holds counter counterTarget [.int 1] = .ok true := by
  simp only [holds, FunctionTable.eval_eq_valueIn]
  exact ⟨rfl, rfl⟩

theorem counter_search :
    (counterChecker.graph counter counterTarget [.int 0] [[.bool false], [.bool true]]).search 10 1 =
      .ok (.found ⟨[.int 1], [([.int 0], [.bool true])]⟩) := by
  simp [Graph.search, Graph.searchFrom, Graph.findTarget, Graph.expandAll, Graph.expand, graph,
    counter_next, counter_holds, Std.HashSet.size_insert, Bind.bind, Except.bind, pure, Except.pure]

/-- The counter reaches its target by one step with the switch on. -/
def counterWitness : Witness where
  frames := [⟨bind [("n", .int)] [.int 0], bind [("go", .bool)] [.bool true]⟩,
    ⟨bind [("n", .int)] [.int 1], ∅⟩]

theorem counter_check : counterChecker.check counter 1 = .ok (.reachable counterWitness) := by
  have hchoices : inputCombinations ⟨1, 1, 1⟩ counter = .ok [[.bool false], [.bool true]] := rfl
  rw [check_eq_search rfl rfl hchoices counter_init]
  show (Graph.search _ 10 1).map _ = _
  rw [counter_search]
  rfl

theorem check_decides_counter :
    counterChecker.check counter 1 = .ok (.reachable counterWitness) ∧
      counterChecker.Decides ⟨1, 1, 1⟩ counter 1 (.reachable counterWitness) :=
  ⟨counter_check, check_decides rfl counter_check⟩

end SortedRewriting.Checker
