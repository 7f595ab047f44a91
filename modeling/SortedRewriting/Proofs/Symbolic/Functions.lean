import SortedRewriting.Proofs.Symbolic.Building
import SortedRewriting.Proofs.Symbolic.Memo

/-!
# Calls of defined functions

The body of a function is read in the setting of a call (`Setting.ofCall`): its parameters have
their types and the values of the arguments. `FunDef.Gives` says that there it means a value.

* **`FunctionTable.callWithin_eq_ok`**: then the call has that value, with one more call to nest.
* `Layered`: each definition is well typed over those before it; `Layered.calls`: then it calls
  no others.
-/

namespace SortedRewriting

open Term (Means HasType)

/-! ## Parameters -/

/-- The types of parameters, by name. -/
def contextOf (params : List (String × Ty)) (name : String) : Option Ty :=
  (params.find? (·.1 == name)).map (·.2)

/-- The values of parameters, by name. -/
def envOf (params : List (String × Ty)) (args : List Value) : Env :=
  (params.zip args).foldl (fun env p => env.insert p.1.1 p.2) ∅

/-- The setting in which the body of a function is read. -/
def Setting.ofCall (functions : Signature) (call : Caller) (params : List (String × Ty))
    (args : List Value) : Setting :=
  ⟨functions, contextOf params, call, envOf params args⟩

theorem getElem?_foldl_insert_of_not_mem {pairs : List ((String × Ty) × Value)} {name : String}
    (h : ∀ p ∈ pairs, p.1.1 ≠ name) (env : Env) :
    (pairs.foldl (fun env p => env.insert p.1.1 p.2) env)[name]? = env[name]? := by
  induction pairs generalizing env with
  | nil => rfl
  | cons p pairs ih =>
    obtain ⟨hp, h⟩ := List.forall_mem_cons.mp h
    rw [List.foldl_cons, ih h, Std.ExtTreeMap.getElem?_insert, if_neg]
    simpa using hp

theorem getElem?_foldl_insert {params : List (String × Ty)} (distinct : (params.map (·.1)).Nodup)
    {args : List Value} {i : Nat} {name : String} {ty : Ty} {v : Value}
    (hp : params[i]? = some (name, ty)) (hv : args[i]? = some v) (env : Env) :
    ((params.zip args).foldl (fun env p => env.insert p.1.1 p.2) env)[name]? = some v := by
  induction params generalizing args i env with
  | nil => exact absurd hp nofun
  | cons p params ih =>
    cases args with
    | nil => exact absurd hv nofun
    | cons a args =>
      rw [List.map_cons, List.nodup_cons] at distinct
      rw [List.zip_cons_cons, List.foldl_cons]
      cases i with
      | zero =>
        cases hp
        cases hv
        rw [getElem?_foldl_insert_of_not_mem, Std.ExtTreeMap.getElem?_insert_self]
        rintro ⟨q, w⟩ hq rfl
        exact distinct.1 (List.mem_map_of_mem (f := (·.1)) (List.of_mem_zip hq).1)
      | succ i => exact ih distinct.2 hp hv _

theorem contextOf_eq_some {params : List (String × Ty)} (distinct : (params.map (·.1)).Nodup)
    {i : Nat} {name : String} {ty : Ty} (hp : params[i]? = some (name, ty)) :
    contextOf params name = some ty := by
  unfold contextOf
  induction params generalizing i with
  | nil => exact absurd hp nofun
  | cons p params ih =>
    rw [List.map_cons, List.nodup_cons] at distinct
    rw [List.find?_cons]
    cases i with
    | zero =>
      cases hp
      simp
    | succ i =>
      have hp : params[i]? = some (name, ty) := hp
      have hname : name ∈ params.map (·.1) :=
        List.mem_map_of_mem (f := (·.1)) (List.mem_of_getElem? hp)
      have hne : p.1 ≠ name := fun he => distinct.1 (he ▸ hname)
      rw [beq_eq_false_iff_ne.mpr hne]
      exact ih distinct.2 hp

/-- In the setting of a call a parameter is bound to its argument. -/
theorem Setting.binds_ofCall {F : Signature} {call : Caller} {params : List (String × Ty)}
    (distinct : (params.map (·.1)).Nodup) {args : List Value} (i : Nat) {name : String} {v : Value}
    (hp : params[i]? = some (name, v.ty)) (hv : args[i]? = some v) :
    (Setting.ofCall F call params args).Binds name v :=
  ⟨contextOf_eq_some distinct hp, getElem?_foldl_insert distinct hp hv ∅⟩

/-! ## Definitions and calls -/

/-- The types of the parameters and of the result. -/
def FunDef.signature (f : FunDef) : List Ty × Ty := (f.params.map (·.2), f.result)

/-- A call of the function is well typed, and its body means the value. -/
structure FunDef.Gives (functions : Signature) (call : Caller) (f : FunDef) (args : List Value)
    (v : Value) : Prop where
  args_ty : args.map Value.ty = f.params.map (·.2)
  result_ty : v.ty = f.result
  body : Means (.ofCall functions call f.params args) f.body v

/-- Arguments of the right types are bound. -/
theorem FunDef.bindArgs_eq_ok {f : FunDef} {args : List Value}
    (h : args.map Value.ty = f.params.map (·.2)) : f.bindArgs args = .ok (envOf f.params args) := by
  have hlen : args.length = f.params.length := by simpa using congrArg List.length h
  unfold bindArgs envOf
  rw [if_neg (by omega)]
  generalize (∅ : Env) = env
  generalize f.params = params at h hlen
  clear hlen
  induction params generalizing args env with
  | nil => rfl
  | cons p params ih =>
    cases args with
    | nil => rfl
    | cons a args =>
      obtain ⟨hty, h⟩ := List.cons.inj h
      rw [List.zip_cons_cons, List.foldlM_cons, List.foldl_cons]
      simp only [hty, if_true]
      exact ih _ h

namespace FunctionTable

variable {t : FunctionTable} {f : FunDef}

/-- **A call of a defined function has the value that its body means.** -/
theorem callWithin_eq_ok (hf : f ∈ t.defs) {F : Signature} {n : Nat} {args : List Value} {v : Value}
    (h : f.Gives F (t.callWithin n) args v) : t.callWithin (n + 1) f.name args = .ok v := by
  rw [callWithin_eq hf, FunDef.bindArgs_eq_ok h.args_ty]
  exact h.body.value

/-- A definition of a new name is put at the end. -/
theorem insert?_eq_some (h : f.name ∉ t.defs.map (·.name)) :
    ∃ t', t.insert? f = some t' ∧ t'.defs = t.defs ++ [f] := by
  unfold insert?
  rw [dif_neg h]
  exact ⟨_, rfl, rfl⟩

theorem defs_of_insert?_eq_some {t' : FunctionTable} (h : t.insert? f = some t') :
    t'.defs = t.defs ++ [f] := by
  unfold insert? at h
  split at h
  · cases h
  · cases h
    rfl

/-- Definitions of distinct new names are all kept, in their order. -/
theorem insertAll_defs {fs : List FunDef} (h : ((t.defs ++ fs).map (·.name)).Nodup) :
    (t.insertAll fs).defs = t.defs ++ fs := by
  induction fs generalizing t with
  | nil => rw [List.append_nil]; rfl
  | cons f fs ih =>
    have hnew : f.name ∉ t.defs.map (·.name) := by
      intro hmem
      rw [List.map_append, List.nodup_append] at h
      exact h.2.2 _ hmem _ List.mem_cons_self rfl
    obtain ⟨t', ht', hdefs⟩ := insert?_eq_some hnew
    have hsplit : t.defs ++ f :: fs = t'.defs ++ fs := by
      rw [hdefs, List.append_assoc, List.singleton_append]
    rw [hsplit] at h ⊢
    rw [← ih h]
    show (fs.foldl _ ((t.insert? f).getD t)).defs = _
    rw [ht']
    rfl

end FunctionTable

/-! ## Layers -/

/-- The signatures of definitions, by name. -/
def Signature.of (fs : List FunDef) : Signature :=
  fun name => (fs.find? (·.name == name)).map FunDef.signature

theorem Signature.of_eq_some {fs : List FunDef} (distinct : (fs.map (·.name)).Nodup) {f : FunDef}
    (hf : f ∈ fs) : Signature.of fs f.name = some f.signature := by
  have h := (⟨fs, distinct⟩ : FunctionTable).find?_eq_some hf
  unfold FunctionTable.find? at h
  rw [of, h]
  rfl

theorem Signature.exists_of_eq_some {fs : List FunDef} {name : String} {sig : List Ty × Ty}
    (h : Signature.of fs name = some sig) : name ∈ fs.map (·.name) := by
  obtain ⟨f, hf, -⟩ := Option.map_eq_some_iff.mp h
  have hname := List.find?_some hf
  rw [← eq_of_beq hname]
  exact List.mem_map_of_mem (List.mem_of_find?_eq_some hf)

/-- Each definition is well typed over those before it. -/
def Layered : List FunDef → List FunDef → Prop
  | _, [] => True
  | before, f :: fs => HasType (.of before) (contextOf f.params) f.body f.result ∧
      Layered (before ++ [f]) fs

theorem Layered.append {before fs gs : List FunDef} (h : Layered before fs)
    (h' : Layered (before ++ fs) gs) : Layered before (fs ++ gs) := by
  induction fs generalizing before with
  | nil => rwa [List.append_nil] at h'
  | cons f fs ih =>
    refine ⟨h.1, ih h.2 ?_⟩
    rwa [List.append_assoc, List.singleton_append]

/-- Definitions that call nothing are in layers, in any order. -/
theorem layered_of_typed {fs : List FunDef}
    (h : ∀ f ∈ fs, ∀ F, HasType F (contextOf f.params) f.body f.result) (before : List FunDef) :
    Layered before fs := by
  induction fs generalizing before with
  | nil => trivial
  | cons f fs ih =>
    obtain ⟨hf, hfs⟩ := List.forall_mem_cons.mp h
    exact ⟨hf _, ih hfs _⟩

/-- A definition that is well typed over those before it calls no others. -/
theorem Layered.calls {before fs : List FunDef} {f : FunDef} (h : Layered before (f :: fs))
    {name : String} (hname : name ∈ f.body.calledFunctions) : name ∈ before.map (·.name) := by
  obtain ⟨sig, hsig⟩ := h.1.calls_declared hname
  exact Signature.exists_of_eq_some hsig

end SortedRewriting
