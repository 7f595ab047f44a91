import SortedRewriting.Proofs.Symbolic.Memo
import SortedRewriting.Proofs.Symbolic.Nesting

/-!
# Plain evaluation

A caller is *plain* (`FunctionTable.Plain`) if it answers every call with the plain value of the
function's unfolded body, where it answers the calls inside as well: no memo, no nodes that are
shared, and no limit to how deeply calls nest.

* **`FunctionTable.eval_plain`**: over a non-recursive table there is one plain caller. Evaluation
  with memos gives the same values and errors, and never meets the call limit.
-/

namespace SortedRewriting.FunctionTable

open Term (FailsWith OnApplied)

/-- The answer to a call: the value of the unfolded body in the environment of the arguments, where
`call` answers the calls inside. -/
def answer (t : FunctionTable) (call : Caller) (name : String) (args : List Value) :
    Except EvalError Value :=
  match t.find? name with
  | none => .error (.unknownFunction name)
  | some d => do d.body.unfolded.valueIn call (← d.bindArgs args)

/-- Every call is answered by the caller itself, in the same way. -/
def Plain (t : FunctionTable) (call : Caller) : Prop :=
  ∀ name args, call name args = t.answer call name args

variable {t : FunctionTable} {call call' : Caller} {f : String} {n m : Nat}

/-! ## One plain caller -/

/-- An answer depends on calls of the invoked functions. -/
theorem answer_congr (h : ∀ g, t.Invokes f g → call g = call' g) (args : List Value) :
    t.answer call f args = t.answer call' f args := by
  unfold answer
  cases hd : t.find? f with
  | none => rfl
  | some d =>
    have hbody : ∀ env, d.body.unfolded.valueIn call env = d.body.unfolded.valueIn call' env := by
      intro env
      rw [← Term.valueIn_unfolded d.body fun _ _ => rfl]
      exact Term.valueIn_unfolded d.body fun g hg => h g ⟨d, hd, hg⟩
    simp only [hbody]

/-- A call with a memo of its own is an answer, whose calls nest one level less. -/
theorem callWithin_succ (n : Nat) (f : String) (args : List Value) :
    t.callWithin (n + 1) f args = t.answer (t.callWithin n) f args := by
  rw [callWithin]
  unfold answer
  cases t.find? f with
  | none => rfl
  | some d => simp only [Term.evalIn_run', Term.valueIn_unfolded d.body fun _ _ => rfl]

/-- A plain caller answers as the nested calls do, if the limit allows for them. -/
theorem Plain.eq_callWithin (h : t.Plain call) (hf : t.NestsWithin n f) :
    call f = t.callWithin n f := by
  induction n generalizing f with
  | zero => exact hf.elim
  | succ n ih =>
    funext args
    rw [h, callWithin_succ]
    exact answer_congr (fun g hg => ih (hf g hg)) args

/-- A higher limit makes no difference. -/
theorem callWithin_eq_of_le (hf : t.NestsWithin n f) (hle : n ≤ m) :
    t.callWithin m f = t.callWithin n f := by
  induction n generalizing f m with
  | zero => exact hf.elim
  | succ n ih =>
    obtain ⟨m, rfl⟩ := Nat.exists_eq_add_of_le' hle
    funext args
    rw [← Nat.add_assoc, callWithin_succ, callWithin_succ]
    exact answer_congr (fun g hg => ih (hf g hg) (Nat.le_add_left n m)) args

/-- The limit on calls of a table allows for all that a non-recursive table makes. -/
theorem NonRecursive.plain_call (h : t.NonRecursive) : t.Plain t.call := by
  intro f args
  have hlimit : t.callLimit = t.size + 999999 + 1 := rfl
  unfold call
  rw [hlimit, callWithin_succ]
  refine answer_congr (fun g _ => ?_) args
  rw [callWithin_eq_of_le (h.nestsWithin g) (by omega),
    callWithin_eq_of_le (h.nestsWithin g) (by omega : t.size + 1 ≤ t.size + 999999 + 1)]

theorem Plain.eq_call (hplain : t.Plain call) (h : t.NonRecursive) : call = t.call := by
  funext f
  rw [hplain.eq_callWithin (h.nestsWithin f), h.plain_call.eq_callWithin (h.nestsWithin f)]

/-! ## Errors of calls -/

/-- The errors of variables, types and numbers of arguments are among these. -/
structure CallErrors (P : EvalError → Prop) : Prop extends Term.OwnErrors P where
  arity (name : String) (expected found : Nat) : P (.arity name expected found)

variable {P : EvalError → Prop}

theorem bindArgs_failsWith (own : CallErrors P) (d : FunDef) (args : List Value) :
    FailsWith P (d.bindArgs args) := by
  unfold FunDef.bindArgs
  split
  · exact Term.failsWith_error (own.arity _ _ _)
  · generalize (∅ : Env) = env
    induction d.params.zip args generalizing env with
    | nil => exact Term.failsWith_ok env
    | cons p pairs ih =>
      obtain ⟨⟨name, ty⟩, v⟩ := p
      rw [List.foldlM_cons]
      refine FailsWith.bind ?_ fun env => ih env
      dsimp only
      split
      · exact Term.failsWith_ok _
      · exact Term.failsWith_error (own.mismatch _ _)

/-- A plain caller fails as arguments do, or at an unknown function. A property of functions that
passes to those they invoke tells which ones can be unknown. The induction is on how deeply the
calls nest. -/
theorem Plain.failsWith (h : t.Plain call) (own : CallErrors P) {Q : String → Prop}
    (invoked : ∀ f g, Q f → t.Invokes f g → Q g)
    (unknown : ∀ f, Q f → t.find? f = none → P (.unknownFunction f)) (hf : t.NestsWithin n f)
    (hQ : Q f) (args : List Value) : FailsWith P (call f args) := by
  induction n generalizing f args with
  | zero => exact hf.elim
  | succ n ih =>
    rw [h]
    unfold answer
    cases hd : t.find? f with
    | none => exact Term.failsWith_error (unknown f hQ hd)
    | some d =>
      refine (bindArgs_failsWith own d args).bind fun env => ?_
      rw [← Term.valueIn_unfolded d.body fun _ _ => rfl]
      refine Term.valueIn_failsWith own.toOwnErrors d.body fun g hg => ?_
      have hfg : t.Invokes f g := ⟨d, hd, hg⟩
      exact ih (hf g hfg) (invoked f g hQ hfg)

/-- The errors of variables and types are no errors of the limit. -/
theorem ownErrors_ne_callDepth : Term.OwnErrors (· ≠ .callDepth) where
  unbound _ := nofun
  mismatch _ _ := nofun

/-- A plain caller never meets the limit. -/
theorem Plain.ne_callDepth (h : t.Plain call) (hf : t.NestsWithin n f) (args : List Value) :
    FailsWith (· ≠ .callDepth) (call f args) :=
  h.failsWith (Q := fun _ => True) ⟨ownErrors_ne_callDepth, fun _ _ _ => nofun⟩
    (fun _ _ _ _ => trivial) (fun _ _ _ => nofun) hf trivial args

/-! ## Evaluation -/

/-- **Memos and the call limit do not show**: evaluation over a non-recursive table gives the values
and errors of the one plain caller. -/
theorem eval_plain (h : t.NonRecursive) :
    (∃! call, t.Plain call) ∧ ∀ call, t.Plain call →
      (∀ name args, t.call name args = call name args ∧ t.call name args ≠ .error .callDepth) ∧
      ∀ env e, t.eval env e = e.unfolded.valueIn call env ∧ t.eval env e ≠ .error .callDepth := by
  refine ⟨⟨t.call, h.plain_call, fun _ hplain => hplain.eq_call h⟩, fun call hplain => ?_⟩
  cases hplain.eq_call h
  have hcall : ∀ name args, FailsWith (· ≠ .callDepth) (t.call name args) :=
    fun name args => hplain.ne_callDepth (h.nestsWithin name) args
  refine ⟨fun name args => ⟨rfl, fun herr => hcall name args _ herr rfl⟩, fun env e => ?_⟩
  have heval : t.eval env e = e.valueIn t.call env := eval_eq_valueIn env e
  have hfails : FailsWith (· ≠ .callDepth) (e.valueIn t.call env) :=
    Term.valueIn_failsWith ownErrors_ne_callDepth e fun f _ => hcall f
  rw [heval]
  exact ⟨Term.valueIn_unfolded e fun _ _ => rfl, fun herr => hfails _ herr rfl⟩

theorem Plain.double (h : doubling.Plain call) (n : Int64) :
    call "double" [.int n] = .ok (.int (n + n)) := by
  rw [h]
  rfl

theorem Plain.quadruple (h : doubling.Plain call) (n : Int64) :
    call "quadruple" [.int n] = .ok (.int (n + n + (n + n))) := by
  rw [h]
  show (call "double" [.int n] >>= fun v => Except.ok [v]) >>= call "double" = _
  rw [h.double]
  exact h.double _

/-- Four times a variable, whose node is shared; the branch that is not taken would fail. -/
def guardedQuadruple : Term :=
  let n := Term.var 0 "n" .int
  .ite 3 (.eq 1 n n) (.apply 2 "quadruple" [n] .int) (.apply 2 "missing" [n] .int)

/-- The term has the value that the plain caller gives it. -/
theorem eval_guardedQuadruple : doubling.NonRecursive ∧
    doubling.eval ((∅ : Env).insert "n" (.int 3)) guardedQuadruple = .ok (.int 12) := by
  obtain ⟨⟨call, hcall, -⟩, hplain⟩ := eval_plain nonRecursive_doubling
  obtain ⟨-, heval⟩ := hplain call hcall
  refine ⟨nonRecursive_doubling, ?_⟩
  rw [(heval _ _).1]
  exact hcall.quadruple 3

end SortedRewriting.FunctionTable
