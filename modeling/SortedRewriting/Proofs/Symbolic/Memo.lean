import SortedRewriting.Symbolic.Evaluation

/-!
# The memo does not show

A memo is *sound* (`Term.Memo.Sound`) when every value in it is the value of its node. From a sound
memo, evaluation answers what the plain evaluator `Term.valueIn` does, value or error, and leaves a
sound memo (`Term.Computes`, `Term.evalIn_computes`).

* **`FunctionTable.eval_eq_valueIn`**: the value of a term over a table is its plain value.
* `FunctionTable.callWithin_eq`: a call of a defined function is the plain value of its body in the
  environment of the arguments.
-/

namespace SortedRewriting

namespace Term

variable {α β : Type} {call : Caller} {env : Env}

/-- Every recorded value is the value of its node. -/
def Memo.Sound (call : Caller) (env : Env) (m : Memo) : Prop :=
  ∀ t v, m[t]? = some v → valueIn call env t = .ok v

/-- From a sound memo, the evaluation answers `r`, and leaves a sound memo if `r` is a value. -/
def Computes (call : Caller) (env : Env) (x : Frame α) (r : Except EvalError α) : Prop :=
  ∀ m, Memo.Sound call env m → match r with
    | .ok a => ∃ m', x m = .ok (a, m') ∧ Memo.Sound call env m'
    | .error e => x m = .error e

theorem Memo.sound_empty : Memo.Sound call env ∅ := fun t v h => by simp at h

theorem Memo.Sound.insert {m : Memo} (h : Memo.Sound call env m) {t : Term} {v : Value}
    (hv : valueIn call env t = .ok v) : Memo.Sound call env (m.insert t v) := by
  intro u w hw
  rw [Std.HashMap.getElem?_insert] at hw
  split at hw
  · rename_i hu
    rw [← eq_of_beq hu, hv, Option.some.inj hw]
  · exact h u w hw

/-! ## Evaluation step by step -/

theorem computes_pure (a : α) : Computes call env (pure a) (.ok a) :=
  fun m hm => ⟨m, rfl, hm⟩

/-- An operation that does not touch the memo. -/
theorem computes_lift (r : Except EvalError α) : Computes call env (liftM r) r := by
  intro m hm
  cases r with
  | ok a => exact ⟨m, rfl, hm⟩
  | error e => rfl

theorem Computes.bind {x : Frame α} {r : Except EvalError α} {f : α → Frame β}
    {s : α → Except EvalError β} (hx : Computes call env x r)
    (hf : ∀ a, Computes call env (f a) (s a)) : Computes call env (x >>= f) (r >>= s) := by
  intro m hm
  have h := hx m hm
  cases r with
  | ok a =>
    obtain ⟨m', hrun, hm'⟩ := h
    have hstep : (x >>= f) m = f a m' := by
      show (x m >>= fun p => f p.1 p.2) = _
      rw [hrun]
      rfl
    have h' := hf a m' hm'
    rw [← hstep] at h'
    exact h'
  | error e =>
    show (x m >>= fun p => f p.1 p.2) = _
    rw [h]
    rfl

/-- A node is looked up first; its value is recorded where the memo lacks it. -/
theorem memo_step (t : Term) (x : Frame Value) (m : Memo) :
    (do match (← get)[t]? with
      | some v => return v
      | none => record t x : Frame Value) m =
      match m[t]? with
      | some v => .ok (v, m)
      | none => x m >>= fun p => .ok (p.1, p.2.insert t p.1) := by
  show (match m[t]? with
    | some v => pure v
    | none => record t x : Frame Value) m = _
  cases m[t]? <;> rfl

theorem computes_node {t : Term} {x : Frame Value} (h : Computes call env x (valueIn call env t)) :
    Computes call env (do match (← get)[t]? with
      | some v => return v
      | none => record t x) (valueIn call env t) := by
  intro m hm
  simp only [memo_step]
  have hrun := h m hm
  cases hmt : m[t]? with
  | some v =>
    rw [hm t v hmt]
    exact ⟨m, rfl, hm⟩
  | none =>
    cases hv : valueIn call env t with
    | ok a =>
      rw [hv] at hrun
      obtain ⟨m', hx, hm'⟩ := hrun
      exact ⟨m'.insert t a, by rw [hx]; rfl, hm'.insert hv⟩
    | error e =>
      rw [hv] at hrun
      show (x m >>= _) = _
      rw [hrun]
      rfl

/-! ## The evaluators agree -/

mutual

/-- **Evaluation with a sound memo gives the plain value.** -/
theorem evalIn_computes : (t : Term) →
    Computes call env (evalIn call env t) (valueIn call env t)
  | .const l v => by
    rw [evalIn]
    exact computes_node (computes_pure v)
  | .var l s ty => by
    rw [evalIn]
    exact computes_node (computes_lift _)
  | .node l tag cs width => by
    rw [evalIn]
    refine computes_node ?_
    rw [valueIn]
    exact (evalIn_computes tag).bind fun v => (computes_lift _).bind fun n =>
      (evalTrees_computes cs).bind fun xs => computes_pure _
  | .select l a i => by
    rw [evalIn]
    refine computes_node ?_
    rw [valueIn]
    exact (evalIn_computes a).bind fun v => computes_lift _
  | .tagOf l a => by
    rw [evalIn]
    refine computes_node ?_
    rw [valueIn]
    exact (evalIn_computes a).bind fun v => computes_lift _
  | .test l form a => by
    rw [evalIn]
    refine computes_node ?_
    rw [valueIn]
    exact (evalIn_computes a).bind fun v => computes_lift _
  | .eq l a b => by
    rw [evalIn]
    refine computes_node ?_
    rw [valueIn]
    exact (evalIn_computes a).bind fun v => (evalIn_computes b).bind fun w => computes_lift _
  | .join l op as => by
    rw [evalIn]
    refine computes_node ?_
    rw [valueIn]
    exact evalJoin_computes op as
  | .not l a => by
    rw [evalIn]
    refine computes_node ?_
    rw [valueIn]
    exact (evalIn_computes a).bind fun v => computes_lift _
  | .ite l c y n => by
    rw [evalIn]
    refine computes_node ?_
    rw [valueIn]
    refine (evalIn_computes c).bind fun v => (computes_lift _).bind fun b => ?_
    cases b
    · exact evalIn_computes n
    · exact evalIn_computes y
  | .arith l op a b => by
    rw [evalIn]
    refine computes_node ?_
    rw [valueIn]
    exact (evalIn_computes a).bind fun v => (computes_lift _).bind fun m =>
      (evalIn_computes b).bind fun w => (computes_lift _).bind fun n => computes_pure _
  | .apply l f as ty => by
    rw [evalIn]
    refine computes_node ?_
    rw [valueIn]
    exact (evalValues_computes as).bind fun vs => computes_lift _

theorem evalValues_computes : (as : List Term) →
    Computes call env (evalValues call env as) (valuesIn call env as)
  | [] => computes_pure []
  | a :: as => by
    rw [evalValues, valuesIn]
    exact (evalIn_computes a).bind fun v => (evalValues_computes as).bind fun vs => computes_pure _

theorem evalTrees_computes : (as : List Term) →
    Computes call env (evalTrees call env as) (treesIn call env as)
  | [] => computes_pure []
  | a :: as => by
    rw [evalTrees, treesIn]
    exact (evalIn_computes a).bind fun v => (computes_lift _).bind fun x =>
      (evalTrees_computes as).bind fun xs => computes_pure _

theorem evalJoin_computes (op : Connective) : (as : List Term) →
    Computes call env (evalJoin call env op as) (decideIn call env op as)
  | [] => computes_pure _
  | a :: as => by
    rw [evalJoin, decideIn]
    refine (evalIn_computes a).bind fun v => (computes_lift _).bind fun b => ?_
    split
    · exact computes_pure _
    · exact evalJoin_computes op as

end

/-- An evaluation with a memo of its own gives the plain value. -/
theorem evalIn_run' (t : Term) : (t.evalIn call env).run' ∅ = t.valueIn call env := by
  have h := (evalIn_computes t : Computes call env _ _) ∅ Memo.sound_empty
  cases hv : t.valueIn call env with
  | ok v =>
    rw [hv] at h
    obtain ⟨m', hrun, -⟩ := h
    show Prod.fst <$> t.evalIn call env ∅ = _
    rw [hrun]
    rfl
  | error e =>
    rw [hv] at h
    show Prod.fst <$> t.evalIn call env ∅ = _
    rw [h]
    rfl

end Term

namespace FunctionTable

variable {t : FunctionTable}

/-- **The value of a term over a table is its plain value.** -/
theorem eval_eq_valueIn (env : Env) (e : Term) : t.eval env e = e.valueIn t.call env :=
  e.evalIn_run'

/-- A name stands for the one definition that has it. -/
theorem find?_eq_some {f : FunDef} (hf : f ∈ t.defs) : t.find? f.name = some f := by
  unfold find?
  obtain ⟨defs, distinct⟩ := t
  induction defs with
  | nil => exact absurd hf List.not_mem_nil
  | cons g gs ih =>
    rw [List.map_cons, List.nodup_cons] at distinct
    rw [List.find?_cons]
    rcases List.mem_cons.mp hf with rfl | hf
    · rw [beq_self_eq_true]
    · have hne : g.name ≠ f.name := fun h => distinct.1 (h ▸ List.mem_map_of_mem hf)
      rw [beq_eq_false_iff_ne.mpr hne]
      exact ih distinct.2 hf

/-- A call of a defined function: its body over the arguments, with one call less to nest. -/
theorem callWithin_eq {f : FunDef} (hf : f ∈ t.defs) (n : Nat) (args : List Value) :
    t.callWithin (n + 1) f.name args =
      (f.bindArgs args >>= fun env => f.body.valueIn (t.callWithin n) env) := by
  rw [callWithin, find?_eq_some hf]
  simp only [Term.evalIn_run']

end FunctionTable

end SortedRewriting
