import SortedRewriting.Proofs.Engine.Compiled
import SortedRewriting.Trace.Basic

/-!
# Derivations and their traces

A derivation (`Engine.Derivation`) applies rules of an engine at paths within its bounds, one after
the other, with a step counter that goes up by one.

* `Engine.Derivation.ne_error`: what leads to a tree that is no error starts at one.
* `Engine.Compiled.mem_reached_iff`: the trees within a number of steps, as a list.
* **`Trace.ofWitness_of_derivation`**: the witness of a derivation is read as a trace of just these
  applications, and the trace replays; or a tree of the derivation does not decode. There is no
  other way to fail.
-/

namespace SortedRewriting

/-- A rule that is applied at a path, the step counter, and the tree that this gives. -/
structure Application where
  tag : RuleTag
  path : Path
  step : Int64
  result : Tree

/-- The application that a step of a trace records. -/
def TraceStep.application (s : TraceStep) : Application := ⟨s.tag, s.path, s.step, s.result⟩

namespace Engine

/-- Applications that lead from one tree to another; `k` is the step counter of the first. -/
inductive Derivation (e : Engine) : Nat → Tree → List Application → Tree → Prop
  | nil {k x} : Derivation e k x [] x
  | cons {k x tag p y as z} (known : tag ∈ e.bounds.ruleTags) (inside : p ∈ e.bounds.paths)
      (rewrite : e.rewrite x tag p (.ofNat k) = .ok y) (rest : Derivation e (k + 1) y as z) :
      Derivation e k x (⟨tag, p, .ofNat k, y⟩ :: as) z

variable {e : Engine} {k : Nat} {x y z : Tree} {as : List Application}

theorem Derivation.eq_of_nil (h : e.Derivation k x [] z) : x = z := by
  cases h
  rfl

/-- One more application at the end. -/
theorem Derivation.concat (h : e.Derivation k x as y) {tag : RuleTag} {p : Path}
    (known : tag ∈ e.bounds.ruleTags) (inside : p ∈ e.bounds.paths)
    (rewrite : e.rewrite y tag p (.ofNat (k + as.length)) = .ok z) :
    e.Derivation k x (as ++ [⟨tag, p, .ofNat (k + as.length), z⟩]) z := by
  induction h with
  | nil => exact .cons known inside rewrite .nil
  | @cons k x tag' p' y' as y known' inside' rewrite' _ ih =>
    have hlen : k + 1 + as.length = k + (as.length + 1) := by omega
    rw [List.length_cons] at rewrite ⊢
    rw [hlen] at ih
    exact .cons known' inside' rewrite' (ih rewrite)

theorem Derivation.ne_error (he : e.Compiled) (h : e.Derivation k x as z) (hz : z ≠ .error) :
    x ≠ .error := by
  induction h with
  | nil => exact hz
  | cons _ _ rewrite _ ih =>
    rintro rfl
    rw [he.rewrite_error] at rewrite
    cases rewrite
    exact ih hz rfl

/-- A known tag is that of a rule. -/
theorem Intact.exists_rule (h : e.Intact) {tag : RuleTag} (known : tag ∈ e.bounds.ruleTags) :
    ∃ rule, e.rule? tag = some rule := by
  have hlt := Bounds.mem_ruleTags_iff.mp known
  rw [h.ruleCount_eq] at hlt
  exact ⟨_, List.getElem?_eq_getElem hlt⟩

/-- The result of each application is reached on the way, and the rest of the way starts there. -/
theorem Derivation.exists_parts (h : e.Derivation k x as z) {a : Application} (ha : a ∈ as) :
    ∃ k' front back, e.Derivation k x front a.result ∧ e.Derivation k' a.result back z ∧
      front.length ≤ as.length := by
  induction h with
  | nil => exact absurd ha List.not_mem_nil
  | @cons k x tag p y as z known inside rewrite rest ih =>
    rcases List.mem_cons.mp ha with rfl | ha
    · exact ⟨k + 1, _, as, .cons known inside rewrite .nil, rest, Nat.succ_le_succ (Nat.zero_le _)⟩
    · obtain ⟨k', front, back, hfront, hback, hlen⟩ := ih ha
      exact ⟨k', _, back, .cons known inside rewrite hfront, hback, Nat.succ_le_succ hlen⟩

/-! ## Trees within a number of steps -/

/-- The trees that at most `n` applications lead to, each with the step counter it is reached at;
`k` is the counter of the first application. -/
def reached (e : Engine) : Nat → Nat → Tree → List (Tree × Nat)
  | 0, k, x => [(x, k)]
  | n + 1, k, x => (x, k) :: e.bounds.ruleTags.flatMap fun tag => e.bounds.paths.flatMap fun p =>
      reached e n (k + 1) (applyAt e.theory.rules e.book e.bounds x tag p (.ofNat k))

/-- **What is reached within a number of steps is what derivations of that length lead to.** -/
theorem Compiled.mem_reached_iff (he : e.Compiled) {n k' : Nat} :
    (z, k') ∈ e.reached n k x ↔
      ∃ as, e.Derivation k x as z ∧ as.length ≤ n ∧ k' = k + as.length := by
  induction n generalizing k x with
  | zero =>
    rw [reached, List.mem_singleton]
    constructor
    · rintro ⟨⟩
      exact ⟨[], .nil, Nat.le_refl 0, rfl⟩
    · rintro ⟨as, h, hlen, rfl⟩
      cases List.length_eq_zero_iff.mp (Nat.le_zero.mp hlen)
      rw [h.eq_of_nil]
      rfl
  | succ n ih =>
    simp only [reached, List.mem_cons, List.mem_flatMap, ih]
    constructor
    · rintro (⟨⟨⟩⟩ | ⟨tag, known, p, inside, as, h, hlen, rfl⟩)
      · exact ⟨[], .nil, Nat.zero_le _, rfl⟩
      · refine ⟨_, .cons known inside (he.rewrite_eq x tag p _) h, Nat.succ_le_succ hlen, ?_⟩
        rw [List.length_cons]
        omega
    · rintro ⟨as, h, hlen, rfl⟩
      cases h with
      | nil => exact .inl rfl
      | @cons _ _ tag p y as _ known inside rewrite rest =>
        rw [he.rewrite_eq, Except.ok.injEq] at rewrite
        refine .inr ⟨tag, known, p, inside, as, rewrite ▸ rest, Nat.le_of_succ_le_succ hlen, ?_⟩
        rw [List.length_cons]
        omega

end Engine

/-! ## The frames of a derivation -/

/-- The state of a rewriting run. -/
def runState (x : Tree) (step : Int64) : Env :=
  .ofList [(RunVariable.tree, Value.tree x), (RunVariable.step, Value.int step)]

/-- The inputs of a rewriting run. -/
def runInputs (tag : RuleTag) (p : Path) : Env :=
  .ofList [(RunVariable.rule, Value.rule tag), (RunVariable.path, Value.path p)]

/-- The frames of applications from a tree on; `k` is the step counter of the first. -/
def framesFrom (k : Nat) (x : Tree) : List Application → List WitnessFrame
  | [] => [⟨runState x (.ofNat k), ∅⟩]
  | a :: as => ⟨runState x (.ofNat k), runInputs a.tag a.path⟩ :: framesFrom (k + 1) a.result as

namespace Trace

theorem framesFrom_eq_cons (k : Nat) (x : Tree) (as : List Application) :
    ∃ inputs rest, framesFrom k x as = ⟨runState x (.ofNat k), inputs⟩ :: rest := by
  cases as with
  | nil => exact ⟨_, _, rfl⟩
  | cons a as => exact ⟨_, _, rfl⟩

variable {x y z : Tree} {n : Int64} {inputs : Env} {tag : RuleTag} {p : Path}

theorem frameTree_runState (index : Nat) : frameTree ⟨runState x n, inputs⟩ index = .ok x := by
  have h : (runState x n)[RunVariable.tree]? = some (.tree x) := rfl
  unfold frameTree
  simp only [h]

theorem frameStep_runState (index : Nat) : frameStep ⟨runState x n, inputs⟩ index = .ok n := by
  have h : (runState x n)[RunVariable.step]? = some (.int n) := rfl
  unfold frameStep
  simp only [h]

theorem frameRule_runInputs {state : Env} (index : Nat) :
    frameRule ⟨state, runInputs tag p⟩ index = .ok tag := by
  have h : (runInputs tag p)[RunVariable.rule]? = some (.rule tag) := rfl
  unfold frameRule
  simp only [h]

theorem framePath_runInputs {state : Env} (index : Nat) :
    framePath ⟨state, runInputs tag p⟩ index = .ok p := by
  have h : (runInputs tag p)[RunVariable.path]? = some (.path p) := rfl
  unfold framePath
  simp only [h]

/-! ## Reading and replaying -/

variable {e : Engine} {t : Trace} {k : Nat} {as : List Application}

/-- The trace without steps, at a tree that decodes. -/
theorem start_eq_ok_iff : start e x = .ok t ↔
    ∃ term, decodeTree e x = .ok term ∧ t = ⟨e.theory.fingerprint, x, term, [], 0⟩ := by
  unfold start
  rw [bind_eq_ok_iff]
  exact exists_congr fun term => and_congr_right fun _ =>
    ⟨fun h => (Except.ok.inj h).symm, fun h => congrArg Except.ok h.symm⟩

/-- A step is recorded behind all others, if these are in effect. -/
theorem record_eq (hversion : t.version = t.steps.length) (s : TraceStep) :
    t.record s = { t with steps := t.steps ++ [s], version := (t.steps ++ [s]).length } := by
  unfold record
  rw [hversion, List.take_length]

/-- A tree of the derivation does not decode. -/
def Undecoded (e : Engine) (as : List Application) (err : DecodeError) : Prop :=
  ∃ a ∈ as, e.book.decode a.result = .error err

/-- A step between the trees of an application, where the result decodes. -/
theorem exists_stepBetween {rule : Rule} (hr : e.rule? tag = some rule) {term : Expr}
    (hterm : e.book.decode y = .ok term) :
    ∃ s : TraceStep, stepBetween e tag p n x y = .ok s ∧ s.application = ⟨tag, p, n, y⟩ ∧
      s.pre = x.fingerprint ∧ s.post = y.fingerprint := by
  unfold stepBetween decodeTree
  rw [hr, hterm]
  exact ⟨_, rfl, rfl, rfl, rfl⟩

theorem rewriteTree_eq_ok (h : e.rewrite x tag p n = .ok y) : rewriteTree e x tag p n = .ok y := by
  unfold rewriteTree
  rw [h]
  rfl

/-- A recorded step that fits the tree before it is replayed. -/
theorem replaySteps_cons {s : TraceStep} {rest : List TraceStep} {i : Nat}
    (hpre : s.pre = x.fingerprint) (hs : s.application = ⟨tag, p, n, y⟩)
    (hrewrite : e.rewrite x tag p n = .ok y) (hy : y ≠ .error) (hpost : s.post = y.fingerprint) :
    replaySteps e i x (s :: rest) = replaySteps e (i + 1) y rest := by
  have hisError : ¬ y.isError = true := fun h => hy (Tree.isError_iff.mp h)
  have htag : s.tag = tag := congrArg Application.tag hs
  have hpath : s.path = p := congrArg Application.path hs
  have hstep : s.step = n := congrArg Application.step hs
  rw [replaySteps, if_neg (not_not_intro hpre.symm), htag, hpath, hstep, rewriteTree_eq_ok hrewrite]
  show (if y.isError = true then _ else _) = _
  rw [if_neg hisError, if_neg (not_not_intro hpost.symm)]

/-- **The frames of a derivation are read as its applications**, and these replay; or a result does
not decode. -/
theorem followFrames_of_derivation (he : e.Compiled) (h : e.Derivation k x as z) (hz : z ≠ .error)
    (t : Trace) (hversion : t.version = t.steps.length) (index : Nat) :
    (∃ steps : List TraceStep, followFrames e index t (framesFrom k x as) =
        .ok { t with steps := t.steps ++ steps, version := (t.steps ++ steps).length } ∧
      steps.map (·.application) = as ∧ ∀ i, replaySteps e i x steps = .ok z) ∨
    ∃ err, followFrames e index t (framesFrom k x as) = .error (.decode err) ∧ Undecoded e as err := by
  induction h generalizing t index with
  | nil =>
    refine .inl ⟨[], ?_, rfl, fun _ => rfl⟩
    rw [List.append_nil, ← hversion]
    rfl
  | @cons k x tag p y as z known inside rewrite rest ih =>
    have hy : y ≠ .error := rest.ne_error he hz
    obtain ⟨rule, hr⟩ := he.intact.exists_rule known
    obtain ⟨inputs, frames, hframes⟩ := framesFrom_eq_cons (k + 1) y as
    have hread : followFrames e index t (framesFrom k x (⟨tag, p, .ofNat k, y⟩ :: as)) =
        (stepBetween e tag p (.ofNat k) x y >>= fun s =>
          followFrames e (index + 1) (t.record s) (framesFrom (k + 1) y as)) := by
      conv_lhs => rw [framesFrom, hframes, followFrames]
      rw [frameRule_runInputs, framePath_runInputs, frameStep_runState, frameTree_runState,
        frameTree_runState, hframes]
      rfl
    rw [hread]
    cases hterm : e.book.decode y with
    | error err =>
      refine .inr ⟨err, ?_, _, List.mem_cons_self, hterm⟩
      unfold stepBetween decodeTree
      rw [hr, hterm]
      rfl
    | ok term =>
      obtain ⟨s, hbetween, happlication, hpre, hpost⟩ := exists_stepBetween hr hterm
      rw [hbetween]
      have hrecord := record_eq hversion s
      rcases ih hz (t.record s) (by rw [hrecord]) (index + 1) with
        ⟨steps, hfollow, hmap, hreplay⟩ | ⟨err, hfollow, a, ha, hdecode⟩
      · refine .inl ⟨s :: steps, hfollow.trans ?_, ?_, fun i => ?_⟩
        · rw [hrecord, List.append_assoc, List.singleton_append]
        · rw [List.map_cons, hmap, happlication]
        · rw [replaySteps_cons hpre happlication rewrite hy hpost]
          exact hreplay (i + 1)
      · exact .inr ⟨err, hfollow, a, List.mem_cons_of_mem _ ha, hdecode⟩

/-- A witness is read from its first tree on. -/
theorem ofWitness_framesFrom (e : Engine) (x : Tree) (as : List Application) :
    ofWitness e ⟨framesFrom 0 x as⟩ =
      (start e x >>= fun t => followFrames e 0 t (framesFrom 0 x as)) := by
  obtain ⟨inputs, frames, hframes⟩ := framesFrom_eq_cons 0 x as
  rw [hframes]
  show (frameTree _ 0 >>= _) = _
  rw [frameTree_runState]
  rfl

/-- **The witness of a derivation is read as its trace**, which replays; or one of its trees does
not decode. -/
theorem ofWitness_of_derivation (he : e.Compiled) (h : e.Derivation 0 x as z) (hz : z ≠ .error) :
    (∃ t, ofWitness e ⟨framesFrom 0 x as⟩ = .ok t ∧ t.initial = x ∧
      t.steps.map (·.application) = as ∧ t.version = t.steps.length ∧ t.replay e = .ok z) ∨
    ∃ err, ofWitness e ⟨framesFrom 0 x as⟩ = .error (.decode err) ∧
      (e.book.decode x = .error err ∨ Undecoded e as err) := by
  rw [ofWitness_framesFrom]
  unfold start decodeTree
  cases hterm : e.book.decode x with
  | error err => exact .inr ⟨err, rfl, .inl rfl⟩
  | ok term =>
    rcases followFrames_of_derivation he h hz ⟨e.theory.fingerprint, x, term, [], 0⟩ rfl 0 with
      ⟨steps, hfollow, hmap, hreplay⟩ | ⟨err, hfollow, hundecoded⟩
    · refine .inl ⟨_, hfollow, rfl, hmap, rfl, ?_⟩
      unfold replay replayTo
      simp only [List.nil_append, Nat.lt_irrefl, if_false, ne_eq, not_true_eq_false,
        List.take_length]
      exact hreplay 0
    · exact .inr ⟨err, hfollow, .inr hundecoded⟩

end Trace

end SortedRewriting
