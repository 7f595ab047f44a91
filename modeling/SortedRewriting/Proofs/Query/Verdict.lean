import Mathlib.Control.Traversable.Instances
import SortedRewriting.Proofs.Query.System

/-!
# The verdict of a query is exact

`Query.Exact` says what an answer tells about derivations of the goal from the start.

* `Query.run_iff_derivation`: the runs of the searched graph are the derivations.
* `Query.answer_of_check`: the check never fails, and its answer is exact.
* **`Query.run_exact`**: so is the answer of the query, whatever is done to save a witness. A query
  fails only where a tree of a shortest derivation does not decode or the witness is not written.
* `Query.run_returns`: what holds of every conclusion from an answer of the checker holds of the
  answer to the query.
* `Query.run_decided`: if all states fit in the budget and decode, the answer says in how many steps
  the goal is first reached (`Query.Unhindered`, `Query.FirstReached`).
-/

namespace SortedRewriting

/-! ## What an action returns -/

/-- Every value that the action returns has the property. -/
def Returns {m : Type → Type} [Functor m] {α : Type} (P : α → Prop) (x : m α) : Prop :=
  ∃ y : m {a // P a}, Subtype.val <$> y = x

section Returns

variable {m : Type → Type} [Monad m] [LawfulMonad m] {α β : Type} {P : α → Prop} {Q : β → Prop}

theorem Returns.pure {a : α} (h : P a) : Returns P (Pure.pure a : m α) :=
  ⟨Pure.pure ⟨a, h⟩, map_pure _ _⟩

theorem Returns.bind {x : m α} {f : α → m β} (hx : Returns P x)
    (hf : ∀ a, P a → Returns Q (f a)) : Returns Q (x >>= f) := by
  obtain ⟨y, rfl⟩ := hx
  refine ⟨y >>= fun a => (hf a.1 a.2).choose, ?_⟩
  rw [map_bind, bind_map_left]
  exact congrArg (y >>= ·) (funext fun a => (hf a.1 a.2).choose_spec)

/-- Nothing is known of an action of which nothing is said. -/
theorem Returns.any (x : m α) : Returns (fun _ => True) x :=
  ⟨(⟨·, trivial⟩) <$> x, by rw [← comp_map]; exact id_map x⟩

/-- An action without effects is what it returns. -/
theorem Returns.of_id {x : Id α} (h : Returns P x) : P x.run := by
  obtain ⟨⟨a, ha⟩, rfl⟩ := h
  exact ha

end Returns

namespace Query

open Engine (Derivation)

variable {q : Query} {g : Graph (List Value) (List Value) CheckerError} {as : List Application}
  {x z : Tree} {k : Nat}

/-! ## Runs and derivations -/

/-- The steps of applications from a tree on; `k` is the step counter of the first. -/
def stepsFrom (k : Nat) (x : Tree) : List Application → List (List Value × List Value)
  | [] => []
  | a :: as => (stateOf x (.ofNat k), choiceOf a.tag a.path) :: stepsFrom (k + 1) a.result as

theorem length_stepsFrom (k : Nat) (x : Tree) (as : List Application) :
    (stepsFrom k x as).length = as.length := by
  induction as generalizing k x with
  | nil => rfl
  | cons a as ih => rw [stepsFrom, List.length_cons, List.length_cons, ih]

/-- The steps of one more application. -/
theorem stepsFrom_concat (h : q.engine.Derivation k x as z) (a : Application) :
    stepsFrom k x (as ++ [a]) =
      stepsFrom k x as ++ [(stateOf z (.ofNat (k + as.length)), choiceOf a.tag a.path)] := by
  induction h with
  | nil => rfl
  | @cons k x tag p y as z _ _ _ _ ih =>
    have hlen : k + 1 + as.length = k + (as.length + 1) := by omega
    rw [hlen] at ih
    rw [List.cons_append, stepsFrom, ih]
    rfl

/-- The step counter wraps as numbers do. -/
theorem ofNat_succ (n : Nat) : Int64.ofNat (n + 1) = Int64.ofNat n + 1 := Int64.ofNat_add n 1

/-- A derivation extends a run. -/
theorem run_of_derivation (hg : q.Searches g) (h : q.engine.Derivation k x as z)
    {trail : List (List Value × List Value)} (hrun : g.Run trail (stateOf x (.ofNat k))) :
    g.Run ((stepsFrom k x as).reverse ++ trail) (stateOf z (.ofNat (k + as.length))) := by
  induction h generalizing trail with
  | nil => exact hrun
  | @cons k x tag p y as z known inside rewrite _ ih =>
    have hlen : k + 1 + as.length = k + (as.length + 1) := by omega
    have hchoice := (hg.choices _).mpr ⟨tag, known, p, inside, rfl⟩
    have hnext := hg.step x (.ofNat k) tag p y rewrite
    rw [← ofNat_succ] at hnext
    have hrest := ih (.step hrun hchoice hnext)
    rw [hlen] at hrest
    rw [stepsFrom, List.reverse_cons, List.append_assoc]
    exact hrest

/-- **The runs of the searched graph are the derivations from the start.** -/
theorem run_iff_derivation (he : q.engine.Compiled) (hg : q.Searches g)
    {trail : List (List Value × List Value)} {state : List Value} :
    g.Run trail state ↔ ∃ as x, q.engine.Derivation 0 q.startTree as x ∧
      state = stateOf x (.ofNat as.length) ∧ trail = (stepsFrom 0 q.startTree as).reverse := by
  constructor
  · intro h
    induction h with
    | start => exact ⟨[], q.startTree, .nil, hg.start, rfl⟩
    | step _ hchoice hnext ih =>
      obtain ⟨as, x, hder, rfl, rfl⟩ := ih
      obtain ⟨tag, known, p, inside, rfl⟩ := (hg.choices _).mp hchoice
      have hrewrite := he.rewrite_eq x tag p (.ofNat (0 + as.length))
      rw [Nat.zero_add] at hrewrite
      have hstep := hg.step _ _ _ _ _ hrewrite
      rw [hnext, ← ofNat_succ] at hstep
      cases hstep
      rw [← Nat.zero_add as.length] at hrewrite
      refine ⟨_, _, hder.concat known inside hrewrite, ?_, ?_⟩
      · rw [List.length_append, List.length_singleton, Nat.zero_add]
      · rw [stepsFrom_concat hder, List.reverse_append, Nat.zero_add]
        rfl
  · rintro ⟨as, x, hder, rfl, rfl⟩
    have hstart : g.Run [] (stateOf q.startTree (.ofNat 0)) := by
      show g.Run [] (stateOf q.startTree 0)
      rw [← hg.start]
      exact .start
    have hrun := run_of_derivation hg hder hstart
    rwa [List.append_nil, Nat.zero_add] at hrun

/-- The frames of the steps of a derivation, and of the state that they lead to. -/
theorem frames_stepsFrom (h : q.engine.Derivation k x as z) :
    (stepsFrom k x as).map (fun s =>
      WitnessFrame.mk (Checker.bind q.system.states s.1) (Checker.bind q.system.inputs s.2)) ++
      [⟨Checker.bind q.system.states (stateOf z (.ofNat (k + as.length))), ∅⟩] =
    framesFrom k x as := by
  induction h with
  | nil => rfl
  | @cons k x tag p y as z _ _ _ _ ih =>
    have hlen : k + 1 + as.length = k + (as.length + 1) := by omega
    rw [hlen] at ih
    rw [stepsFrom, List.map_cons, List.cons_append, List.length_cons, ih]
    rfl

/-- The frames of a run to the end of a derivation. -/
theorem witnessOf_derivation (h : q.engine.Derivation 0 q.startTree as z) :
    Checker.witnessOf q.system
      ⟨stateOf z (.ofNat as.length), (stepsFrom 0 q.startTree as).reverse⟩ =
        ⟨framesFrom 0 q.startTree as⟩ := by
  have hframes := frames_stepsFrom h
  rw [Nat.zero_add] at hframes
  unfold Checker.witnessOf
  rw [List.reverse_reverse, ← hframes]

/-! ## Answers -/

/-- A derivation of the goal within the bound on steps, and none is shorter. -/
structure Shortest (q : Query) (as : List Application) : Prop where
  derivation : q.engine.Derivation 0 q.startTree as q.goalTree
  within : as.length ≤ q.config.maxSteps
  shortest : ∀ as', q.engine.Derivation 0 q.startTree as' q.goalTree → as.length ≤ as'.length

/-- No derivation of the goal has as many steps as the bound, or fewer. -/
def OutOfReach (q : Query) : Prop :=
  ∀ as, q.engine.Derivation 0 q.startTree as q.goalTree → q.config.maxSteps < as.length

/-- Derivations within the bound on steps lead to more pairs of a tree and a step counter than the
budget. -/
def OverBudget (q : Query) : Prop :=
  ∃ states : List (Tree × Int64), states.Nodup ∧ q.config.maxStates < states.length ∧
    ∀ state ∈ states, ∃ as, q.engine.Derivation 0 q.startTree as state.1 ∧
      as.length ≤ q.config.maxSteps ∧ state.2 = .ofNat as.length

/-- What an answer of the checker says about derivations. -/
def Answers (q : Query) : Outcome → Prop
  | .reachable w => ∃ as, q.Shortest as ∧ w = ⟨framesFrom 0 q.startTree as⟩
  | .unreachable => q.OutOfReach
  | .unknown _ _ => q.OverBudget

/-- What an answer to the query says about derivations, and what a failure comes from. -/
def Exact (q : Query) : Except Failure SearchOutcome → Prop
  | .ok (.reachable t) => t.initial = q.startTree ∧ t.version = t.steps.length ∧
      q.Shortest (t.steps.map (·.application))
  | .ok .unreachable => q.OutOfReach
  | .ok (.unknown _ _) => q.OverBudget
  | .error (.trace (.decode err)) => ∃ as, q.Shortest as ∧
      (q.engine.book.decode q.startTree = .error err ∨ Trace.Undecoded q.engine as err)
  | .error (.checker .notWritten) => q.config.witnessPath? ≠ none ∧ ∃ as, q.Shortest as
  | .error _ => False

/-! ## Verdicts on the searched graph -/

/-- The targets are the states of the goal. -/
theorem Searches.isTarget_iff (hg : q.Searches g) {x : Tree} {n : Int64} :
    g.isTarget (stateOf x n) = .ok true ↔ x = q.goalTree := by
  rw [hg.isTarget]
  simp

/-- A run is a derivation of as many steps. -/
theorem exists_derivation_of_run (he : q.engine.Compiled) (hg : q.Searches g)
    {trail : List (List Value × List Value)} {state : List Value} (h : g.Run trail state) :
    ∃ as x, q.engine.Derivation 0 q.startTree as x ∧ state = stateOf x (.ofNat as.length) ∧
      trail = (stepsFrom 0 q.startTree as).reverse ∧ trail.length = as.length := by
  obtain ⟨as, x, hder, hstate, rfl⟩ := (run_iff_derivation he hg).mp h
  refine ⟨as, x, hder, hstate, rfl, ?_⟩
  rw [List.length_reverse, length_stepsFrom]

/-- A derivation of the goal is a run of as many steps to a target. -/
theorem exists_run_of_derivation (he : q.engine.Compiled) (hg : q.Searches g)
    (h : q.engine.Derivation 0 q.startTree as q.goalTree) :
    ∃ trail state, g.Run trail state ∧ g.isTarget state = .ok true ∧ trail.length = as.length := by
  refine ⟨_, _, (run_iff_derivation he hg).mpr ⟨as, _, h, rfl, rfl⟩, hg.isTarget_iff.mpr rfl, ?_⟩
  rw [List.length_reverse, length_stepsFrom]

/-- No step and no test of a state on a run fails. -/
theorem not_failsWith (he : q.engine.Compiled) (hg : q.Searches g) (err : CheckerError) :
    ¬ g.FailsWith err := by
  rintro ⟨trail, state, hstate, hfails⟩
  obtain ⟨as, x, -, rfl, -⟩ := exists_derivation_of_run he hg hstate
  rcases hfails with ⟨c, hc, hfail⟩ | hfail
  · obtain ⟨tag, _, p, _, rfl⟩ := (hg.choices c).mp hc
    rw [hg.step _ _ _ _ _ (he.rewrite_eq x tag p _)] at hfail
    exact absurd hfail nofun
  · rw [hg.isTarget] at hfail
    exact absurd hfail nofun

/-- A target that is found has a shortest derivation, and the frames of one. -/
theorem answers_of_found (he : q.engine.Compiled) (hg : q.Searches g)
    {v : Visit (List Value) (List Value)}
    (h : g.Verdict k q.config.maxSteps (.ok (.found v))) :
    q.Answers (.reachable (Checker.witnessOf q.system v)) := by
  obtain ⟨hrun, hwithin, htarget, hshortest⟩ := h
  obtain ⟨as, x, hder, hstate, htrail, hlength⟩ := exists_derivation_of_run he hg hrun
  rw [hstate] at htarget
  cases hg.isTarget_iff.mp htarget
  refine ⟨as, ⟨hder, hlength ▸ hwithin, fun as' hder' => ?_⟩, ?_⟩
  · obtain ⟨trail', state', hrun', htarget', hlength'⟩ := exists_run_of_derivation he hg hder'
    rw [← hlength, ← hlength']
    exact hshortest trail' state' hrun' htarget'
  · rw [← witnessOf_derivation hder, ← hstate, ← htrail]

/-- An exhausted search leaves the goal out of reach. -/
theorem outOfReach_of_exhausted (he : q.engine.Compiled) (hg : q.Searches g)
    (h : g.Verdict k q.config.maxSteps (.ok .exhausted)) : q.OutOfReach := by
  intro as hder
  obtain ⟨trail, state, hrun, htarget, hlength⟩ := exists_run_of_derivation he hg hder
  refine Nat.lt_of_not_le fun hle => h trail state hrun ?_ htarget
  rwa [hlength]

/-- The tree and the step counter of a state. -/
def readState : List Value → Tree × Int64
  | [.tree x, .int n] => (x, n)
  | _ => (.error, 0)

/-- Many states within the bound are many pairs of a tree and a step counter. -/
theorem overBudget_of_manyWithin (he : q.engine.Compiled) (hg : q.Searches g)
    (h : g.ManyWithin q.config.maxSteps q.config.maxStates) : q.OverBudget := by
  obtain ⟨states, hnodup, hmany, hall⟩ := h
  have hread : ∀ state ∈ states, ∃ as x, q.engine.Derivation 0 q.startTree as x ∧
      as.length ≤ q.config.maxSteps ∧ state = stateOf x (.ofNat as.length) := by
    intro state hmem
    obtain ⟨trail, hrun, hwithin⟩ := hall state hmem
    obtain ⟨as, x, hder, hstate, -, hlength⟩ := exists_derivation_of_run he hg hrun
    exact ⟨as, x, hder, hlength ▸ hwithin, hstate⟩
  refine ⟨states.map readState, ?_, by rwa [List.length_map], ?_⟩
  · refine List.Nodup.map_on (fun s hs s' hs' heq => ?_) hnodup
    obtain ⟨as, x, -, -, rfl⟩ := hread s hs
    obtain ⟨as', x', -, -, rfl⟩ := hread s' hs'
    obtain ⟨rfl, hstep⟩ := Prod.mk.inj heq
    exact congrArg (stateOf x) hstep
  · intro pair hpair
    obtain ⟨s, hs, rfl⟩ := List.mem_map.mp hpair
    obtain ⟨as, x, hder, hwithin, rfl⟩ := hread s hs
    exact ⟨as, hder, hwithin, rfl⟩

/-- **The check of a query never fails, and its answer is exact.** -/
theorem answer_of_check (he : q.engine.Compiled) :
    ∃ outcome, (q.prepared q.checker).check q.system q.config.maxSteps = .ok outcome ∧
      q.Answers outcome := by
  obtain ⟨g, hg, hcheck⟩ := check_eq_search he q.checker q.config.maxSteps
  have hverdict := g.search_verdict q.checker.maxStates q.config.maxSteps
  cases hsearch : g.search q.checker.maxStates q.config.maxSteps with
  | error err =>
    rw [hsearch] at hverdict
    exact absurd hverdict (not_failsWith he hg err)
  | ok result =>
    rw [hsearch] at hcheck hverdict
    refine ⟨_, hcheck, ?_⟩
    cases result with
    | found v => exact answers_of_found he hg hverdict
    | exhausted => exact outOfReach_of_exhausted he hg hverdict
    | overBudget depth => exact overBudget_of_manyWithin he hg hverdict

/-- The conclusion from an exact answer is exact. -/
theorem exact_conclude (he : q.engine.Compiled) (hgoal : q.goalTree ≠ .error) {outcome : Outcome}
    (h : q.Answers outcome) : q.Exact (q.conclude outcome) := by
  cases outcome with
  | unreachable => exact h
  | unknown budget depth => exact h
  | reachable w =>
    obtain ⟨as, hshortest, rfl⟩ := h
    rcases Trace.ofWitness_of_derivation he hshortest.derivation hgoal with
      ⟨t, hread, hinitial, hsteps, hversion, hreplay⟩ | ⟨err, hread, hundecoded⟩
    · have hconclude : q.conclude (.reachable ⟨framesFrom 0 q.startTree as⟩) =
          .ok (.reachable t) := by
        show ((Trace.ofWitness q.engine _).mapError Failure.trace >>= _) = _
        rw [hread]
        show ((t.replay q.engine).mapError Failure.trace >>= _) = _
        rw [hreplay]
        rfl
      rw [hconclude]
      exact ⟨hinitial, hversion, hsteps ▸ hshortest⟩
    · have hconclude : q.conclude (.reachable ⟨framesFrom 0 q.startTree as⟩) =
          .error (.trace (.decode err)) := by
        show ((Trace.ofWitness q.engine _).mapError Failure.trace >>= _) = _
        rw [hread]
        rfl
      rw [hconclude]
      exact ⟨as, hshortest, hundecoded⟩

/-! ## Queries whose states fit in the budget -/

/-- The answer is neither unknown nor an error. -/
def Decided : Except Failure SearchOutcome → Prop
  | .ok (.reachable _) => True
  | .ok .unreachable => True
  | _ => False

/-- The number of steps of the trace that is found. -/
def stepsOf : Except Failure SearchOutcome → Option Nat
  | .ok (.reachable t) => some t.steps.length
  | _ => none

theorem exists_of_stepsOf {r : Except Failure SearchOutcome} {n : Nat} (h : stepsOf r = some n) :
    ∃ t, r = .ok (.reachable t) ∧ t.steps.length = n := by
  unfold stepsOf at h
  split at h
  · exact ⟨_, rfl, Option.some.inj h⟩
  · cases h

theorem eq_unreachable {r : Except Failure SearchOutcome} (hdecided : Decided r)
    (h : stepsOf r = none) : r = .ok .unreachable := by
  match r with
  | .ok (.reachable t) => cases h
  | .ok .unreachable => rfl

/-- A trace that an exact answer gives has as many steps as a shortest derivation. -/
theorem stepsOf_eq_some_iff {r : Except Failure SearchOutcome} (hdecided : Decided r)
    (hexact : q.Exact r) {n : Nat} : stepsOf r = some n ↔ ∃ as, q.Shortest as ∧ as.length = n := by
  match r with
  | .ok (.reachable t) =>
    obtain ⟨-, -, hshortest⟩ := hexact
    have hlen : (t.steps.map (·.application)).length = t.steps.length := List.length_map _
    constructor
    · intro h
      exact ⟨_, hshortest, hlen.trans (Option.some.inj h)⟩
    · rintro ⟨as, has, rfl⟩
      have hle := hshortest.shortest as has.derivation
      have hle' := has.shortest _ hshortest.derivation
      exact congrArg some (hlen.symm.trans (Nat.le_antisymm hle hle'))
  | .ok .unreachable =>
    refine ⟨fun h => absurd h nofun, ?_⟩
    rintro ⟨as, has, rfl⟩
    exact absurd has.within (Nat.not_le_of_lt (hexact as has.derivation))

/-- The trees within the bound on steps, each with the number of steps it is reached in. -/
def states (q : Query) : List (Tree × Nat) := q.engine.reached q.config.maxSteps 0 q.startTree

theorem mem_states_iff (he : q.engine.Compiled) {n : Nat} : (z, n) ∈ q.states ↔
    ∃ as, q.engine.Derivation 0 q.startTree as z ∧ as.length ≤ q.config.maxSteps ∧ as.length = n := by
  simp only [states, he.mem_reached_iff, Nat.zero_add, eq_comm]

/-- The goal is first reached in the number of steps. -/
def FirstReached (q : Query) (n : Nat) : Prop :=
  (q.goalTree, n) ∈ q.states ∧ ∀ m < n, (q.goalTree, m) ∉ q.states

instance (q : Query) (n : Nat) : Decidable (q.FirstReached n) :=
  inferInstanceAs (Decidable (_ ∧ _))

theorem exists_shortest_iff (he : q.engine.Compiled) {n : Nat} :
    (∃ as, q.Shortest as ∧ as.length = n) ↔ q.FirstReached n := by
  constructor
  · rintro ⟨as, has, rfl⟩
    refine ⟨(mem_states_iff he).mpr ⟨as, has.derivation, has.within, rfl⟩, fun m hm hmem => ?_⟩
    obtain ⟨as', hder, -, rfl⟩ := (mem_states_iff he).mp hmem
    exact Nat.not_lt_of_le (has.shortest as' hder) hm
  · rintro ⟨hmem, hfirst⟩
    obtain ⟨as, hder, hwithin, rfl⟩ := (mem_states_iff he).mp hmem
    refine ⟨as, ⟨hder, hwithin, fun as' hder' => Nat.le_of_not_lt fun hlt => ?_⟩, rfl⟩
    exact hfirst _ hlt ((mem_states_iff he).mpr ⟨as', hder', by omega, rfl⟩)

/-- Nothing keeps a run from an answer: the budget has room for all states, no witness is written,
and all trees but the error decode. -/
structure Unhindered (q : Query) : Prop where
  budget : q.states.length ≤ q.config.maxStates
  unwritten : q.config.witnessPath? = none
  decodes : ∀ s ∈ q.states, s.1 ≠ .error → (q.engine.book.decode s.1).toOption.isSome = true

instance (q : Query) : Decidable q.Unhindered :=
  decidable_of_iff (q.states.length ≤ q.config.maxStates ∧ q.config.witnessPath? = none ∧
      ∀ s ∈ q.states, s.1 ≠ .error → (q.engine.book.decode s.1).toOption.isSome = true)
    ⟨fun ⟨budget, unwritten, decodes⟩ => ⟨budget, unwritten, decodes⟩,
      fun h => ⟨h.budget, h.unwritten, h.decodes⟩⟩

/-- A budget with room for all states is not exceeded. -/
theorem Unhindered.not_overBudget (h : q.Unhindered) (he : q.engine.Compiled) : ¬ q.OverBudget := by
  rintro ⟨found, hnodup, hmany, hall⟩
  have hsub : found ⊆ q.states.map fun s => (s.1, Int64.ofNat s.2) := by
    intro s hs
    obtain ⟨as, hder, hwithin, hstep⟩ := hall s hs
    exact List.mem_map.mpr
      ⟨_, (mem_states_iff he).mpr ⟨as, hder, hwithin, rfl⟩, Prod.ext rfl hstep.symm⟩
  have hle := hnodup.length_le_of_subset hsub
  rw [List.length_map] at hle
  exact Nat.not_lt_of_le (Nat.le_trans hle h.budget) hmany

/-- On the way to the goal all trees decode. -/
theorem Unhindered.decode_ne_error (h : q.Unhindered) (he : q.engine.Compiled)
    (hgoal : q.goalTree ≠ .error) {front back : List Application}
    (hfront : q.engine.Derivation 0 q.startTree front x) (hwithin : front.length ≤ q.config.maxSteps)
    (hback : q.engine.Derivation k x back q.goalTree) (err : DecodeError) :
    q.engine.book.decode x ≠ .error err := by
  have hmem := (mem_states_iff he).mpr ⟨front, hfront, hwithin, rfl⟩
  intro herror
  have hsome := h.decodes _ hmem (hback.ne_error he hgoal)
  rw [herror] at hsome
  cases hsome

/-- **An exact answer is decided if nothing keeps the run from it**, and a trace has as many steps as
the goal is first reached in. -/
theorem Unhindered.decided (h : q.Unhindered) (he : q.engine.Compiled) (hgoal : q.goalTree ≠ .error)
    {r : Except Failure SearchOutcome} (hr : q.Exact r) :
    Decided r ∧ ∀ n, stepsOf r = some n ↔ q.FirstReached n := by
  have hdecided : Decided r := by
    unfold Exact at hr
    split at hr
    · trivial
    · trivial
    · exact absurd hr (h.not_overBudget he)
    · obtain ⟨as, has, hstart | ⟨a, ha, hresult⟩⟩ := hr
      · exact absurd hstart (h.decode_ne_error he hgoal .nil (Nat.zero_le _) has.derivation _)
      · obtain ⟨k', front, back, hfront, hback, hlen⟩ := has.derivation.exists_parts ha
        have hwithin := Nat.le_trans hlen has.within
        exact absurd hresult (h.decode_ne_error he hgoal hfront hwithin hback _)
    · exact absurd h.unwritten hr.1
    · exact hr.elim
  exact ⟨hdecided, fun n => (stepsOf_eq_some_iff hdecided hr).trans (exists_shortest_iff he)⟩

/-! ## Running a query -/

/-- What a query is made of. -/
theorem exists_engine_of_pose {theory : Theory} {start goal : Expr} {config : SearchConfig}
    (h : pose theory start goal config = .ok q) :
    ∃ engine start' goal', Engine.compile theory config.depth = .ok engine ∧
      engine.theory.elaborateExpr start = .ok start' ∧
      engine.theory.elaborateExpr goal = .ok goal' ∧
      q = ⟨(engine.register start').register goal', start', goal', config⟩ := by
  unfold pose at h
  obtain ⟨_, -, h⟩ := bind_eq_ok_iff.mp h
  obtain ⟨engine, hengine, h⟩ := bind_eq_ok_iff.mp h
  obtain ⟨start', hstart, h⟩ := bind_eq_ok_iff.mp h
  obtain ⟨goal', hgoal, h⟩ := bind_eq_ok_iff.mp h
  cases h
  exact ⟨engine, start', goal', mapError_eq_ok_iff.mp hengine, mapError_eq_ok_iff.mp hstart,
    mapError_eq_ok_iff.mp hgoal, rfl⟩

/-- The engine of a query is one of the library. -/
theorem compiled_of_pose {theory : Theory} (made : theory.Made) {start goal : Expr}
    {config : SearchConfig} (h : pose theory start goal config = .ok q) : q.engine.Compiled := by
  obtain ⟨engine, start', goal', hcompile, -, -, rfl⟩ := exists_engine_of_pose h
  exact .register (.register (.compile made hcompile) start') goal'

section Run

variable {m : Type → Type} [Monad m] [LawfulMonad m]

/-- A check that saves its witness answers exactly, or the witness is not written. -/
theorem checkSaving_returns (he : q.engine.Compiled) (save : Checker.Save m) :
    Returns (fun
        | .ok outcome => q.Answers outcome
        | .error err => err = .notWritten ∧ q.config.witnessPath? ≠ none ∧ ∃ as, q.Shortest as)
      ((q.prepared q.checker).checkSaving save q.system q.config.maxSteps) := by
  obtain ⟨outcome, hcheck, hanswer⟩ := answer_of_check he
  unfold Checker.checkSaving
  rw [hcheck]
  have hpath : (q.prepared q.checker).witnessPath? = q.config.witnessPath? := rfl
  rw [hpath]
  cases outcome with
  | reachable w =>
    cases hwrite : q.config.witnessPath? with
    | none => exact .pure hanswer
    | some path =>
      refine (Returns.any (save path w.toBytes)).bind fun written _ => ?_
      split
      · exact .pure hanswer
      · obtain ⟨as, hshortest, -⟩ := hanswer
        exact .pure ⟨rfl, nofun, as, hshortest⟩
  | unreachable => exact .pure hanswer
  | unknown budget depth => exact .pure hanswer

/-- **The answer to a query is exact.** -/
theorem run_exact {theory : Theory} (made : theory.Made) {start goal : Expr} {config : SearchConfig}
    (hq : pose theory start goal config = .ok q) (hgoal : q.goalTree ≠ .error)
    (save : Checker.Save m) : Returns q.Exact (q.run save) := by
  have he := compiled_of_pose made hq
  unfold run runOn
  rw [prepare_eq he rfl]
  refine Returns.bind (P := fun r => q.Exact r.2) ?_ fun r hr => .pure hr
  refine (checkSaving_returns he save).bind fun answer hanswer => ?_
  cases answer with
  | ok outcome => exact .pure (exact_conclude he hgoal hanswer)
  | error err =>
    obtain ⟨rfl, hpath, hshortest⟩ := hanswer
    exact .pure ⟨hpath, hshortest⟩

/-- What holds of every conclusion from an answer of the checker, and of a witness that is not
written, holds of the answer to the query. -/
theorem run_returns {P : Except Failure SearchOutcome → Prop} (he : q.engine.Compiled)
    (hconclude : ∀ outcome, q.Answers outcome → P (q.conclude outcome))
    (hwritten : q.config.witnessPath? ≠ none → (∃ as, q.Shortest as) →
      P (.error (.checker .notWritten))) (save : Checker.Save m) :
    Returns P (q.run save) := by
  unfold run runOn
  rw [prepare_eq he rfl]
  refine Returns.bind (P := fun r => P r.2) ?_ fun r hr => .pure hr
  refine (checkSaving_returns he save).bind fun answer hanswer => ?_
  cases answer with
  | ok outcome => exact .pure (hconclude outcome hanswer)
  | error err =>
    obtain ⟨rfl, hpath, hshortest⟩ := hanswer
    exact .pure (hwritten hpath hshortest)

/-- **A run that nothing keeps from an answer is decided**, and finds the goal if it is reached within
the bound on steps. -/
theorem run_decided (he : q.engine.Compiled) (hgoal : q.goalTree ≠ .error) (h : q.Unhindered)
    (save : Checker.Save m) :
    Returns (fun r => Decided r ∧ ∀ n, stepsOf r = some n ↔ q.FirstReached n) (q.run save) :=
  run_returns he (fun _ hanswer => h.decided he hgoal (exact_conclude he hgoal hanswer))
    (fun hpath _ => absurd h.unwritten hpath) save

end Run

/-- The answer to the query whether the pair of `x` and `y` rewrites to `x` is a trace of one step,
and no derivation is shorter. -/
theorem run_exact_pair : ∃ (q : Query) (t : Trace),
    q.startTree = Pairs.pairTree (Pairs.varTree 3) (Pairs.varTree 4) ∧
    q.goalTree = Pairs.varTree 3 ∧
    Id.run (q.run fun _ _ => false) = .ok (.reachable t) ∧ t.steps.length = 1 ∧
    q.Shortest (t.steps.map (·.application)) := by
  obtain ⟨theory, made, h⟩ := Pairs.exists_theory (P := fun theory =>
    (pose theory (Pairs.pair (Pairs.thingVar "x") (Pairs.thingVar "y")) (Pairs.thingVar "x")
      { depth := 1, maxSteps := 1 }).toOption.any fun q =>
        q.startTree = Pairs.pairTree (Pairs.varTree 3) (Pairs.varTree 4) ∧
        q.goalTree = Pairs.varTree 3 ∧ q.Unhindered ∧ q.FirstReached 1) (by decide +kernel)
  obtain ⟨q, hq, h⟩ := exists_ok_of_any h
  obtain ⟨hstart, hgoal, hfree, hfirst⟩ := of_decide_eq_true h
  have hne : q.goalTree ≠ .error := by
    rw [hgoal]
    nofun
  have hexact := (run_exact made hq hne (m := Id) fun _ _ => false).of_id
  have hsteps := ((hfree.decided (compiled_of_pose made hq) hne hexact).2 1).mpr hfirst
  obtain ⟨t, ht, hlen⟩ := exists_of_stepsOf hsteps
  rw [ht] at hexact
  exact ⟨q, t, hstart, hgoal, ht, hlen, hexact.2.2⟩

end Query

end SortedRewriting
