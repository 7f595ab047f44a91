import SortedRewriting.Symbolic.Evaluation

/-!
# The tree that a term unfolds to

The nodes of the unfolding of a term are those that occur in it (`Term.OccursIn`): the term, its
operands, their operands. `Term.unfolded` is that tree, in which no node has an identity of its own.
A term *applies* a function (`Term.Applies`) and *mentions* a variable (`Term.Mentions`) if a node
of its unfolding does.

* **`Term.valueIn_unfolded`**: the plain value of a term is that of its unfolding, whichever nodes
  are shared, and it depends on calls of the applied functions only.
* `Term.valueIn_failsWith`: what the plain value can fail with.
-/

namespace SortedRewriting.Term

variable {a t u : Term} {f x : String} {ty : Ty}

/-! ## Occurrences -/

/-- `u` is a node of the unfolding of a term. -/
inductive OccursIn (u : Term) : Term → Prop
  | self : OccursIn u u
  | operand {a t : Term} (mem : a ∈ t.operands) (occurs : OccursIn u a) : OccursIn u t

/-- A function is applied somewhere in the unfolding. -/
def Applies (t : Term) (f : String) : Prop := ∃ u, OccursIn u t ∧ u.function? = some f

/-- Every function that is applied has the property. -/
def OnApplied (Q : String → Prop) (t : Term) : Prop := ∀ f, t.Applies f → Q f

/-- A variable stands somewhere in the unfolding. -/
def Mentions (t : Term) (x : String) (ty : Ty) : Prop := ∃ l, OccursIn (.var l x ty) t

theorem occursIn_iff : OccursIn u t ↔ u = t ∨ ∃ a ∈ t.operands, OccursIn u a := by
  constructor
  · rintro (_ | ⟨mem, occurs⟩)
    · exact .inl rfl
    · exact .inr ⟨_, mem, occurs⟩
  · rintro (rfl | ⟨a, mem, occurs⟩)
    · exact .self
    · exact .operand mem occurs

theorem Applies.operand (mem : a ∈ t.operands) (h : a.Applies f) : t.Applies f := by
  obtain ⟨u, hu, hf⟩ := h
  exact ⟨u, .operand mem hu, hf⟩

theorem Mentions.operand (mem : a ∈ t.operands) (h : a.Mentions x ty) : t.Mentions x ty := by
  obtain ⟨l, hl⟩ := h
  exact ⟨l, .operand mem hl⟩

theorem applies_iff : t.Applies f ↔ t.function? = some f ∨ ∃ a ∈ t.operands, a.Applies f := by
  constructor
  · rintro ⟨u, hu, hf⟩
    rcases occursIn_iff.mp hu with rfl | ⟨a, mem, occurs⟩
    · exact .inl hf
    · exact .inr ⟨a, mem, u, occurs, hf⟩
  · rintro (hf | ⟨a, mem, h⟩)
    · exact ⟨t, .self, hf⟩
    · exact h.operand mem

theorem not_applies_var {l : Nat} : ¬ (var l x ty).Applies f := by
  rintro ⟨u, _ | ⟨mem, -⟩, hf⟩
  · cases hf
  · cases mem

theorem OnApplied.operand {Q : String → Prop} (h : OnApplied Q t) (mem : a ∈ t.operands) :
    OnApplied Q a := fun f hf => h f (hf.operand mem)

theorem OnApplied.applied {Q : String → Prop} {l : Nat} {as : List Term}
    (h : OnApplied Q (.apply l f as ty)) : Q f := h f (applies_iff.mpr (.inl rfl))

/-! ## Unfolding -/

mutual

/-- The term as a tree: the same operations, and every node without identity. -/
def unfolded : Term → Term
  | .const _ v => .const 0 v
  | .var _ x ty => .var 0 x ty
  | .node _ tag cs width => .node 0 (unfolded tag) (unfoldedAll cs) width
  | .select _ a i => .select 0 (unfolded a) i
  | .tagOf _ a => .tagOf 0 (unfolded a)
  | .test _ form a => .test 0 form (unfolded a)
  | .eq _ a b => .eq 0 (unfolded a) (unfolded b)
  | .join _ op as => .join 0 op (unfoldedAll as)
  | .not _ a => .not 0 (unfolded a)
  | .ite _ c y n => .ite 0 (unfolded c) (unfolded y) (unfolded n)
  | .arith _ op a b => .arith 0 op (unfolded a) (unfolded b)
  | .apply _ f as ty => .apply 0 f (unfoldedAll as) ty

/-- Unfolds each term of a list. -/
def unfoldedAll : List Term → List Term
  | [] => []
  | a :: as => unfolded a :: unfoldedAll as

end

/-! ## The plain value of an unfolding -/

section Agreeing

variable {call call' : Caller}

mutual

/-- **The value of a term is that of its unfolding**, for callers that agree on what it applies. -/
theorem valueIn_unfolded {env : Env} : (t : Term) → OnApplied (fun f => call f = call' f) t →
    valueIn call env t = valueIn call' env t.unfolded
  | .const _ _, _ => rfl
  | .var _ _ _, _ => rfl
  | .node _ tag cs _, h => by
    rw [unfolded, valueIn, valueIn, valueIn_unfolded tag (h.operand List.mem_cons_self),
      treesIn_unfolded cs fun c hc => h.operand (List.mem_cons_of_mem tag hc)]
  | .select _ a _, h => by
    rw [unfolded, valueIn, valueIn, valueIn_unfolded a (h.operand List.mem_cons_self)]
  | .tagOf _ a, h => by
    rw [unfolded, valueIn, valueIn, valueIn_unfolded a (h.operand List.mem_cons_self)]
  | .test _ _ a, h => by
    rw [unfolded, valueIn, valueIn, valueIn_unfolded a (h.operand List.mem_cons_self)]
  | .eq _ a b, h => by
    rw [unfolded, valueIn, valueIn, valueIn_unfolded a (h.operand List.mem_cons_self),
      valueIn_unfolded b (h.operand (List.mem_cons_of_mem a List.mem_cons_self))]
  | .join _ op as, h => by
    rw [unfolded, valueIn, valueIn, decideIn_unfolded op as fun a ha => h.operand ha]
  | .not _ a, h => by
    rw [unfolded, valueIn, valueIn, valueIn_unfolded a (h.operand List.mem_cons_self)]
  | .ite _ c y n, h => by
    rw [unfolded, valueIn, valueIn, valueIn_unfolded c (h.operand List.mem_cons_self),
      valueIn_unfolded y (h.operand (List.mem_cons_of_mem c List.mem_cons_self)),
      valueIn_unfolded n (h.operand (List.mem_cons_of_mem c (List.mem_cons_of_mem y
        List.mem_cons_self)))]
  | .arith _ _ a b, h => by
    rw [unfolded, valueIn, valueIn, valueIn_unfolded a (h.operand List.mem_cons_self),
      valueIn_unfolded b (h.operand (List.mem_cons_of_mem a List.mem_cons_self))]
  | .apply _ f as _, h => by
    rw [unfolded, valueIn, valueIn, valuesIn_unfolded as fun a ha => h.operand ha, h.applied]

theorem valuesIn_unfolded {env : Env} : (as : List Term) →
    (∀ a ∈ as, OnApplied (fun f => call f = call' f) a) →
    valuesIn call env as = valuesIn call' env (unfoldedAll as)
  | [], _ => rfl
  | a :: as, h => by
    rw [unfoldedAll, valuesIn, valuesIn, valueIn_unfolded a (h a List.mem_cons_self),
      valuesIn_unfolded as fun b hb => h b (List.mem_cons_of_mem a hb)]

theorem treesIn_unfolded {env : Env} : (as : List Term) →
    (∀ a ∈ as, OnApplied (fun f => call f = call' f) a) →
    treesIn call env as = treesIn call' env (unfoldedAll as)
  | [], _ => rfl
  | a :: as, h => by
    rw [unfoldedAll, treesIn, treesIn, valueIn_unfolded a (h a List.mem_cons_self),
      treesIn_unfolded as fun b hb => h b (List.mem_cons_of_mem a hb)]

theorem decideIn_unfolded {env : Env} (op : Connective) : (as : List Term) →
    (∀ a ∈ as, OnApplied (fun f => call f = call' f) a) →
    decideIn call env op as = decideIn call' env op (unfoldedAll as)
  | [], _ => rfl
  | a :: as, h => by
    rw [unfoldedAll, decideIn, decideIn, valueIn_unfolded a (h a List.mem_cons_self),
      decideIn_unfolded op as fun b hb => h b (List.mem_cons_of_mem a hb)]

end

end Agreeing

/-! ## Errors -/

/-- If an evaluation fails, the error is one of these. -/
def FailsWith {α : Type} (P : EvalError → Prop) (r : Except EvalError α) : Prop :=
  ∀ err, r = .error err → P err

section Failing

/-- The errors of variables and types are among these. -/
structure OwnErrors (P : EvalError → Prop) : Prop where
  unbound (x : String) : P (.unboundVariable x)
  mismatch (expected found : Ty) : P (.mismatch expected found)

variable {α β : Type} {P : EvalError → Prop} {call : Caller} {env : Env}

theorem failsWith_ok (v : α) : FailsWith P (.ok v) := nofun

theorem failsWith_error {err : EvalError} (h : P err) : FailsWith P (.error err : Except _ α) :=
  fun _ he => Except.error.inj he ▸ h

theorem FailsWith.bind {r : Except EvalError α} {s : α → Except EvalError β} (hr : FailsWith P r)
    (hs : ∀ v, FailsWith P (s v)) : FailsWith P (r >>= s) := by
  cases r with
  | ok v => exact hs v
  | error err => exact failsWith_error (hr err rfl)

theorem failsWith_asTree (own : OwnErrors P) (v : Value) : FailsWith P v.asTree := by
  cases v with
  | tree x => exact failsWith_ok x
  | _ => exact failsWith_error (own.mismatch _ _)

theorem failsWith_asInt (own : OwnErrors P) (v : Value) : FailsWith P v.asInt := by
  cases v with
  | int n => exact failsWith_ok n
  | _ => exact failsWith_error (own.mismatch _ _)

theorem failsWith_asBool (own : OwnErrors P) (v : Value) : FailsWith P v.asBool := by
  cases v with
  | bool b => exact failsWith_ok b
  | _ => exact failsWith_error (own.mismatch _ _)

theorem failsWith_equal (own : OwnErrors P) (v w : Value) : FailsWith P (v.equal w) := by
  unfold Value.equal
  split
  · exact failsWith_ok _
  · exact failsWith_error (own.mismatch _ _)

theorem failsWith_lookUp (own : OwnErrors P) (env : Env) (x : String) (ty : Ty) :
    FailsWith P (lookUp env x ty) := by
  unfold lookUp
  split
  · exact failsWith_error (own.unbound x)
  · split
    · exact failsWith_ok _
    · exact failsWith_error (own.mismatch _ _)

mutual

/-- **A term fails with an error of a variable, of a type, or of a function that it applies.** -/
theorem valueIn_failsWith (own : OwnErrors P) : (t : Term) →
    OnApplied (fun f => ∀ args, FailsWith P (call f args)) t → FailsWith P (valueIn call env t)
  | .const _ v, _ => failsWith_ok v
  | .var _ x ty, _ => failsWith_lookUp own env x ty
  | .node _ tag cs _, h => by
    rw [valueIn]
    exact (valueIn_failsWith own tag (h.operand List.mem_cons_self)).bind fun v =>
      (failsWith_asInt own v).bind fun _ => (treesIn_failsWith own cs fun c hc =>
        h.operand (List.mem_cons_of_mem tag hc)).bind fun _ => failsWith_ok _
  | .select _ a _, h => by
    rw [valueIn]
    exact (valueIn_failsWith own a (h.operand List.mem_cons_self)).bind fun v =>
      (failsWith_asTree own v).bind fun _ => failsWith_ok _
  | .tagOf _ a, h => by
    rw [valueIn]
    exact (valueIn_failsWith own a (h.operand List.mem_cons_self)).bind fun v =>
      (failsWith_asTree own v).bind fun _ => failsWith_ok _
  | .test _ _ a, h => by
    rw [valueIn]
    exact (valueIn_failsWith own a (h.operand List.mem_cons_self)).bind fun v =>
      (failsWith_asTree own v).bind fun _ => failsWith_ok _
  | .eq _ a b, h => by
    rw [valueIn]
    exact (valueIn_failsWith own a (h.operand List.mem_cons_self)).bind fun v =>
      (valueIn_failsWith own b (h.operand (List.mem_cons_of_mem a List.mem_cons_self))).bind
        fun w => failsWith_equal own v w
  | .join _ op as, h => by
    rw [valueIn]
    exact decideIn_failsWith own op as fun a ha => h.operand ha
  | .not _ a, h => by
    rw [valueIn]
    exact (valueIn_failsWith own a (h.operand List.mem_cons_self)).bind fun v =>
      (failsWith_asBool own v).bind fun _ => failsWith_ok _
  | .ite _ c y n, h => by
    rw [valueIn]
    refine (valueIn_failsWith own c (h.operand List.mem_cons_self)).bind fun v =>
      (failsWith_asBool own v).bind fun b => ?_
    split
    · exact valueIn_failsWith own y (h.operand (List.mem_cons_of_mem c List.mem_cons_self))
    · exact valueIn_failsWith own n
        (h.operand (List.mem_cons_of_mem c (List.mem_cons_of_mem y List.mem_cons_self)))
  | .arith _ _ a b, h => by
    rw [valueIn]
    exact (valueIn_failsWith own a (h.operand List.mem_cons_self)).bind fun v =>
      (failsWith_asInt own v).bind fun _ =>
        (valueIn_failsWith own b (h.operand (List.mem_cons_of_mem a List.mem_cons_self))).bind
          fun w => (failsWith_asInt own w).bind fun _ => failsWith_ok _
  | .apply _ f as _, h => by
    rw [valueIn]
    exact (valuesIn_failsWith own as fun a ha => h.operand ha).bind fun vs => h.applied vs

theorem valuesIn_failsWith (own : OwnErrors P) : (as : List Term) →
    (∀ a ∈ as, OnApplied (fun f => ∀ args, FailsWith P (call f args)) a) →
    FailsWith P (valuesIn call env as)
  | [], _ => failsWith_ok []
  | a :: as, h => by
    rw [valuesIn]
    exact (valueIn_failsWith own a (h a List.mem_cons_self)).bind fun v =>
      (valuesIn_failsWith own as fun b hb => h b (List.mem_cons_of_mem a hb)).bind fun _ =>
        failsWith_ok _

theorem treesIn_failsWith (own : OwnErrors P) : (as : List Term) →
    (∀ a ∈ as, OnApplied (fun f => ∀ args, FailsWith P (call f args)) a) →
    FailsWith P (treesIn call env as)
  | [], _ => failsWith_ok []
  | a :: as, h => by
    rw [treesIn]
    exact (valueIn_failsWith own a (h a List.mem_cons_self)).bind fun v =>
      (failsWith_asTree own v).bind fun _ => (treesIn_failsWith own as fun b hb =>
        h b (List.mem_cons_of_mem a hb)).bind fun _ => failsWith_ok _

theorem decideIn_failsWith (own : OwnErrors P) (op : Connective) : (as : List Term) →
    (∀ a ∈ as, OnApplied (fun f => ∀ args, FailsWith P (call f args)) a) →
    FailsWith P (decideIn call env op as)
  | [], _ => failsWith_ok _
  | a :: as, h => by
    rw [decideIn]
    refine (valueIn_failsWith own a (h a List.mem_cons_self)).bind fun v =>
      (failsWith_asBool own v).bind fun b => ?_
    split
    · exact failsWith_ok _
    · exact decideIn_failsWith own op as fun b hb => h b (List.mem_cons_of_mem a hb)

end

end Failing

end SortedRewriting.Term
