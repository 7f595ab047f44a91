import SortedRewriting.Proofs.Symbolic.Functions
import SortedRewriting.Proofs.Symbolic.Plain

/-!
# Type soundness

A term has a value of a type (`Term.HasValue`) if it evaluates to one. A well-typed term has one of
its type if it is supplied with what it uses (`Term.Supplied`): the environment binds each variable
it mentions to a value of the variable's type, and the functions it applies answer well-typed calls
with values of their result types (`Answers`).

* `Term.HasType.hasValue`: the step, by induction on the typing, for any caller.
* `FunctionTable.WellTyped.answers`: the functions of a well-typed table answer, by induction on how
  deeply their calls nest.
* **`FunctionTable.eval_hasType`**: over a well-typed, non-recursive table every well-typed term has
  a value of its type, whatever the integers are.
-/

namespace SortedRewriting

/-! ## Values by their types -/

namespace Value

variable {v : Value}

theorem exists_tree_of_ty (h : v.ty = .tree) : ∃ x, v = .tree x := by
  cases v with
  | tree x => exact ⟨x, rfl⟩
  | _ => cases h

theorem exists_int_of_ty (h : v.ty = .int) : ∃ n, v = .int n := by
  cases v with
  | int n => exact ⟨n, rfl⟩
  | _ => cases h

theorem exists_bool_of_ty (h : v.ty = .bool) : ∃ b, v = .bool b := by
  cases v with
  | bool b => exact ⟨b, rfl⟩
  | _ => cases h

end Value

/-- The function answers a well-typed call with a value of its result type. -/
def Answers (F : Signature) (call : Caller) (f : String) : Prop :=
  ∀ params ty, F f = some (params, ty) → ∀ args : List Value, args.map Value.ty = params →
    ∃ v, call f args = .ok v ∧ v.ty = ty

namespace Term

open Value (exists_tree_of_ty exists_int_of_ty exists_bool_of_ty)

variable {F : Signature} {C : String → Option Ty} {call : Caller} {env : Env} {a t u : Term}
  {ty : Ty} {x : String}

/-! ## Variables of a well-typed term -/

/-- The variables that a well-typed term mentions are declared with their types. -/
theorem HasType.declared (h : HasType F C t ty) {ty' : Ty} (hx : t.Mentions x ty') :
    C x = some ty' := by
  obtain ⟨l, hx⟩ := hx
  obtain ⟨_, h⟩ := Typed.of_occursIn ⟨ty, h⟩ hx
  cases h with
  | var declared => exact declared

/-- Each variable that the term mentions has a value of the variable's type. -/
def BoundBy (env : Env) (t : Term) : Prop :=
  ∀ x ty, t.Mentions x ty → ∃ v, env[x]? = some v ∧ v.ty = ty

/-- What the term mentions is bound, and what it applies answers. -/
structure Supplied (F : Signature) (call : Caller) (env : Env) (t : Term) : Prop where
  bound : BoundBy env t
  answers : OnApplied (Answers F call) t

theorem Supplied.operand (h : Supplied F call env t) (mem : a ∈ t.operands) :
    Supplied F call env a where
  bound x ty hx := h.bound x ty (hx.operand mem)
  answers := h.answers.operand mem

/-! ## Terms with values of their types -/

/-- The term evaluates to a value of the type. -/
def HasValue (call : Caller) (env : Env) (t : Term) (ty : Ty) : Prop :=
  ∃ v, Evaluates call env t v ∧ v.ty = ty

theorem HasValue.tree (h : HasValue call env t .tree) : ∃ x, Evaluates call env t (.tree x) := by
  obtain ⟨v, hv, hty⟩ := h
  obtain ⟨x, rfl⟩ := exists_tree_of_ty hty
  exact ⟨x, hv⟩

theorem HasValue.int (h : HasValue call env t .int) : ∃ n, Evaluates call env t (.int n) := by
  obtain ⟨v, hv, hty⟩ := h
  obtain ⟨n, rfl⟩ := exists_int_of_ty hty
  exact ⟨n, hv⟩

theorem HasValue.bool (h : HasValue call env t .bool) : ∃ b, Evaluates call env t (.bool b) := by
  obtain ⟨v, hv, hty⟩ := h
  obtain ⟨b, rfl⟩ := exists_bool_of_ty hty
  exact ⟨b, hv⟩

/-- Arguments with values of the parameter types. -/
theorem exists_values {as : List Term} {params : List Ty}
    (h : List.Forall₂ (HasValue call env) as params) :
    ∃ vs : List Value, List.Forall₂ (Evaluates call env) as vs ∧ vs.map Value.ty = params := by
  induction h with
  | nil => exact ⟨[], .nil, rfl⟩
  | cons ha _ ih =>
    obtain ⟨v, hv, rfl⟩ := ha
    obtain ⟨vs, hvs, rfl⟩ := ih
    exact ⟨v :: vs, .cons hv hvs, rfl⟩

theorem evaluates_var {l : Nat} {v : Value} (h : env[x]? = some v) :
    Evaluates call env (.var l x v.ty) v := by
  show lookUp env x v.ty = .ok v
  unfold lookUp
  rw [h]
  exact if_pos rfl

theorem evaluates_not {l : Nat} {b : Bool} (h : Evaluates call env a (.bool b)) :
    Evaluates call env (.not l a) (.bool !b) := by
  unfold Evaluates at h ⊢
  rw [valueIn, h]
  rfl

theorem evaluates_ite {l : Nat} {c y n : Term} {b : Bool} {v : Value}
    (hc : Evaluates call env c (.bool b)) (hv : Evaluates call env (if b then y else n) v) :
    Evaluates call env (.ite l c y n) v := by
  unfold Evaluates at hc hv ⊢
  rw [valueIn, hc]
  cases b <;> exact hv

theorem evaluates_apply {l : Nat} {f : String} {as : List Term} {vs : List Value} {v : Value}
    (has : List.Forall₂ (Evaluates call env) as vs) (hv : call f vs = .ok v) :
    Evaluates call env (.apply l f as ty) v := by
  unfold Evaluates
  rw [valueIn, valuesIn_eq_ok has]
  exact hv

/-- **A well-typed term has a value of its type**, if it is supplied with what it uses. -/
theorem HasType.hasValue (h : HasType F C t ty) (hs : Supplied F call env t) :
    HasValue call env t ty := by
  induction h with
  | const => exact ⟨_, Reading.const _ _, rfl⟩
  | var =>
    obtain ⟨v, hv, rfl⟩ := hs.bound _ _ ⟨_, .self⟩
    exact ⟨v, evaluates_var hv, rfl⟩
  | node _ _ ihtag ihcs =>
    obtain ⟨n, hn⟩ := (ihtag (hs.operand List.mem_cons_self)).int
    obtain ⟨xs, hxs⟩ := exists_forall₂ fun c hc =>
      (ihcs c hc (hs.operand (List.mem_cons_of_mem _ hc))).tree
    exact ⟨_, Reading.node hn hxs _, rfl⟩
  | select _ ih =>
    obtain ⟨x, hx⟩ := (ih (hs.operand List.mem_cons_self)).tree
    exact ⟨_, Reading.select hx _, rfl⟩
  | tagOf _ ih =>
    obtain ⟨x, hx⟩ := (ih (hs.operand List.mem_cons_self)).tree
    exact ⟨_, Reading.tagOf hx, rfl⟩
  | test _ ih =>
    obtain ⟨x, hx⟩ := (ih (hs.operand List.mem_cons_self)).tree
    exact ⟨_, Reading.test _ hx, rfl⟩
  | eq _ _ iha ihb =>
    obtain ⟨v, hv, hty⟩ := iha (hs.operand List.mem_cons_self)
    obtain ⟨w, hw, rfl⟩ := ihb (hs.operand (List.mem_cons_of_mem _ List.mem_cons_self))
    exact ⟨_, Reading.eq hv hw hty, rfl⟩
  | join _ ih =>
    obtain ⟨bs, hbs⟩ := exists_forall₂ fun a ha => (ih a ha (hs.operand ha)).bool
    exact ⟨_, Reading.join _ hbs, rfl⟩
  | not _ ih =>
    obtain ⟨b, hb⟩ := (ih (hs.operand List.mem_cons_self)).bool
    exact ⟨_, evaluates_not hb, rfl⟩
  | @ite l c y n ty _ _ _ ihc ihy ihn =>
    have hy : y ∈ [c, y, n] := List.mem_cons_of_mem c List.mem_cons_self
    have hn : n ∈ [c, y, n] := List.mem_cons_of_mem c (List.mem_cons_of_mem y List.mem_cons_self)
    obtain ⟨b, hb⟩ := (ihc (hs.operand List.mem_cons_self)).bool
    -- Both branches have values of the type; the evaluation takes one of them.
    have hbranch : HasValue call env (if b then y else n) ty := by
      cases b with
      | true => exact ihy (hs.operand hy)
      | false => exact ihn (hs.operand hn)
    obtain ⟨v, hv, hty⟩ := hbranch
    exact ⟨v, evaluates_ite hb hv, hty⟩
  | arith _ _ iha ihb =>
    obtain ⟨m, hm⟩ := (iha (hs.operand List.mem_cons_self)).int
    obtain ⟨n, hn⟩ := (ihb (hs.operand (List.mem_cons_of_mem _ List.mem_cons_self))).int
    exact ⟨_, Reading.arith _ hm hn, rfl⟩
  | @apply l f ty as params declared arity _ ih =>
    have hargs : List.Forall₂ (HasValue call env) as params :=
      List.forall₂_iff_zip.mpr ⟨arity, fun {a p} hap =>
        ih a p hap (hs.operand (List.of_mem_zip hap).1)⟩
    obtain ⟨vs, hvs, htys⟩ := exists_values hargs
    obtain ⟨v, hv, hty⟩ := hs.answers.applied params ty declared vs htys
    exact ⟨v, evaluates_apply hvs hv, hty⟩

end Term

/-! ## Well-typed tables -/

theorem exists_of_contextOf_eq_some {params : List (String × Ty)} {x : String} {ty : Ty}
    (h : contextOf params x = some ty) : ∃ i : Nat, params[i]? = some (x, ty) := by
  obtain ⟨⟨y, _⟩, hfind, rfl⟩ := Option.map_eq_some_iff.mp h
  have hname := List.find?_some hfind
  cases eq_of_beq (hname : (y == x) = true)
  exact List.mem_iff_getElem?.mp (List.mem_of_find?_eq_some hfind)

/-- The arguments of a well-typed call bind what a body mentions that is well typed under the
parameters. -/
theorem boundBy_envOf {F : Signature} {params : List (String × Ty)} {args : List Value}
    {body : Term} {ty : Ty} (distinct : (params.map (·.1)).Nodup)
    (hargs : args.map Value.ty = params.map (·.2)) (h : Term.HasType F (contextOf params) body ty) :
    body.BoundBy (envOf params args) := by
  intro x ty' hx
  obtain ⟨i, hi⟩ := exists_of_contextOf_eq_some (h.declared hx)
  have hty : (args[i]?).map Value.ty = some ty' := by
    rw [← List.getElem?_map, hargs, List.getElem?_map, hi]
    rfl
  obtain ⟨v, hv, rfl⟩ := Option.map_eq_some_iff.mp hty
  exact ⟨v, getElem?_foldl_insert distinct hi hv ∅, rfl⟩

namespace FunctionTable

/-- Each function has distinct parameters, under which its body has the declared result type. -/
structure WellTyped (t : FunctionTable) : Prop where
  params : ∀ f ∈ t.defs, (f.params.map (·.1)).Nodup
  body : ∀ f ∈ t.defs, Term.HasType (.of t.defs) (contextOf f.params) f.body f.result

variable {t : FunctionTable} {call : Caller} {f : String} {n : Nat}

/-- The functions of a well-typed table answer, to whatever depth their calls nest. -/
theorem WellTyped.answers (hw : t.WellTyped) (hplain : t.Plain call) (hf : t.NestsWithin n f) :
    Answers (.of t.defs) call f := by
  induction n generalizing f with
  | zero => exact hf.elim
  | succ n ih =>
    intro params ty hsig args hargs
    obtain ⟨d, hd, hsig⟩ := Option.map_eq_some_iff.mp hsig
    cases hsig
    have hd : t.find? f = some d := hd
    obtain ⟨hmem, -⟩ := mem_of_find?_eq_some hd
    rw [hplain]
    unfold answer
    rw [hd]
    show ∃ v, (d.bindArgs args >>= fun env => d.body.unfolded.valueIn call env) = .ok v ∧ _
    rw [FunDef.bindArgs_eq_ok hargs]
    show ∃ v, d.body.unfolded.valueIn call _ = .ok v ∧ _
    rw [← Term.valueIn_unfolded d.body fun _ _ => rfl]
    exact (hw.body d hmem).hasValue
      ⟨boundBy_envOf (hw.params d hmem) hargs (hw.body d hmem), fun g hg => ih (hf g ⟨d, hd, hg⟩)⟩

/-- **Type soundness**: over a well-typed table that is not recursive, a well-typed term evaluates
to a value of its type in every environment that gives its variables values of theirs. -/
theorem eval_hasType (hrec : t.NonRecursive) (hw : t.WellTyped) {C : String → Option Ty} {e : Term}
    {ty : Ty} (he : e.HasType (.of t.defs) C ty) {env : Env} (henv : e.BoundBy env) :
    ∃ v, t.eval env e = .ok v ∧ v.ty = e.ty := by
  rw [eval_eq_valueIn, he.ty_eq]
  exact he.hasValue ⟨henv, fun f _ => hw.answers hrec.plain_call (hrec.nestsWithin f)⟩

/-- The application of a function of one parameter. -/
theorem hasType_apply {f : String} {arg res : Ty} {F : Signature} {C : String → Option Ty}
    {l : Nat} {a : Term} (hf : F f = some ([arg], res)) (ha : a.HasType F C arg) :
    (Term.apply l f [a] res).HasType F C res := by
  refine .apply hf rfl fun b p hbp => ?_
  cases List.mem_singleton.mp hbp
  exact ha

theorem wellTyped_doubling : doubling.WellTyped where
  params f hf := by
    simp only [doubling, List.mem_cons, List.not_mem_nil, or_false] at hf
    rcases hf with rfl | rfl <;> simp
  body f hf := by
    simp only [doubling, List.mem_cons, List.not_mem_nil, or_false] at hf
    rcases hf with rfl | rfl
    · exact .arith (.var rfl) (.var rfl)
    · exact hasType_apply rfl (hasType_apply rfl (.var rfl))

/-- Four times the product of a variable and the greatest integer. -/
def wrapping : Term :=
  .apply 3 "quadruple" [.arith 2 .mul (.var 0 "n" .int) (.const 1 (.int Int64.maxValue))] .int

/-- With three for the variable, the product wraps around, and so do the sums. -/
theorem eval_wrapping : doubling.NonRecursive ∧ doubling.WellTyped ∧
    ∃ v, doubling.eval ((∅ : Env).insert "n" (.int 3)) wrapping = .ok v ∧ v.ty = .int ∧
      v = .int (-12) := by
  have htyped : wrapping.HasType (.of doubling.defs) (contextOf [("n", .int)]) .int :=
    hasType_apply rfl (.arith (.var rfl) .const)
  have hbound : wrapping.BoundBy ((∅ : Env).insert "n" (.int 3)) := by
    intro x ty hx
    obtain ⟨i, hi⟩ := exists_of_contextOf_eq_some (htyped.declared hx)
    cases List.mem_singleton.mp (List.mem_of_getElem? hi)
    exact ⟨.int 3, Std.ExtTreeMap.getElem?_insert_self, rfl⟩
  obtain ⟨v, hv, hty⟩ := eval_hasType nonRecursive_doubling wellTyped_doubling htyped hbound
  have hvalue : doubling.eval ((∅ : Env).insert "n" (.int 3)) wrapping = .ok (.int (-12)) := by
    rw [eval_eq_valueIn]
    exact nonRecursive_doubling.plain_call.quadruple (3 * Int64.maxValue)
  exact ⟨nonRecursive_doubling, wellTyped_doubling, v, hv, hty, Except.ok.inj (hv.symm.trans hvalue)⟩

end FunctionTable

end SortedRewriting
