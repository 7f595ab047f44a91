import SortedRewriting.Proofs.Symbolic.Plain
import SortedRewriting.Proofs.Symbolic.Walking

/-!
# Functions over earlier ones

A table is *stratified* (`FunctionTable.Stratified`) if every body, anywhere in its unfolding,
applies no functions but the one it belongs to and those that stand before it.

* `FunctionTable.Stratified.append`: the step, for a definition that is put at the end.
* `FunctionTable.Stratified.nonRecursive`: a stratified table is non-recursive if no body applies
  its own function.
* **`FunctionTable.Stratified.ends_call`**: then a call of one of its functions ends, and never at a
  name that is not defined; `FunctionTable.Stratified.ends_eval`: so does the evaluation of a term
  over them.
-/

namespace SortedRewriting.FunctionTable

open Term (FailsWith OnApplied)

/-- The names of the functions, in order. -/
def names (t : FunctionTable) : List String := t.defs.map (·.name)

/-- Every body applies the function itself and functions that stand before it only. -/
def Stratified (t : FunctionTable) : Prop :=
  ∀ (i : Nat) d, t.defs[i]? = some d → ∀ g, d.body.Applies g → g = d.name ∨ g ∈ t.names.take i

/-- No body applies its own function. -/
def NoneAppliesItself (t : FunctionTable) : Prop := ∀ d ∈ t.defs, ¬ d.body.Applies d.name

/-- It can be read off the called functions. -/
instance (t : FunctionTable) : Decidable t.NoneAppliesItself :=
  decidable_of_iff (∀ d ∈ t.defs, d.name ∉ d.body.calledFunctions)
    (forall₂_congr fun _ _ => not_congr Term.mem_calledFunctions_iff)

/-- The evaluation has come to an end, and not at a name that is not defined. -/
def Ends {α : Type} (r : Except EvalError α) : Prop :=
  FailsWith (fun err => err ≠ .callDepth ∧ ∀ g, err ≠ .unknownFunction g) r

variable {t t' : FunctionTable} {f g : String} {n : Nat}

/-! ## Definitions at the end -/

theorem stratified_empty : empty.Stratified := fun _ _ hd => absurd hd nofun

/-- A definition that applies itself and functions of the table can be put at the end. -/
theorem Stratified.append {d : FunDef} (h : t.Stratified) (hdefs : t'.defs = t.defs ++ [d])
    (hd : ∀ g, d.body.Applies g → g = d.name ∨ g ∈ t.names) : t'.Stratified := by
  have hnames : t'.names = t.names ++ [d.name] := by
    unfold names
    rw [hdefs, List.map_append, List.map_singleton]
  have hlen : t.names.length = t.defs.length := List.length_map _
  intro i d' hd' g hg
  rw [hnames]
  rw [hdefs] at hd'
  rcases Nat.lt_or_ge i t.defs.length with hi | hi
  · rw [List.getElem?_append_left hi] at hd'
    rw [List.take_append_of_le_length (by omega)]
    exact h i d' hd' g hg
  · -- the definition at the end has all others before it
    rw [List.getElem?_append_right hi] at hd'
    obtain ⟨hi', hlast⟩ := List.getElem?_eq_some_iff.mp hd'
    rw [List.length_singleton] at hi'
    rw [List.getElem_singleton] at hlast
    cases hlast
    have hi : i = t.names.length := by omega
    rw [hi, List.take_left]
    exact hd g hg

/-! ## No way back -/

/-- A function stands after those it invokes, itself aside. -/
theorem Stratified.nonRecursive (h : t.Stratified) (hself : t.NoneAppliesItself) :
    t.NonRecursive := by
  refine nonRecursive_of_rank t.names.idxOf fun d hd g hg => ?_
  obtain ⟨i, hi⟩ := List.mem_iff_getElem?.mp hd
  obtain ⟨hlt, rfl⟩ := List.getElem?_eq_some_iff.mp hi
  have hlt' : i < t.names.length := by
    unfold names
    rwa [List.length_map]
  have hrank : t.names.idxOf t.defs[i].name = i := by
    have hname : t.names[i] = t.defs[i].name := List.getElem_map _
    rw [← hname]
    exact List.Nodup.idxOf_getElem t.distinct i hlt'
  rcases h i _ hi g hg with rfl | hbefore
  · exact absurd hg (hself _ hd)
  · rw [hrank]
    exact (List.mem_take_iff_idxOf_lt (List.mem_of_mem_take hbefore)).mp hbefore

/-- The functions of a table invoke functions of the table. -/
theorem Stratified.mem_of_invokes (h : t.Stratified) (hfg : t.Invokes f g) : g ∈ t.names := by
  obtain ⟨d, hd, hg⟩ := hfg
  obtain ⟨hmem, rfl⟩ := mem_of_find?_eq_some hd
  obtain ⟨i, hi⟩ := List.mem_iff_getElem?.mp hmem
  rcases h i d hi g hg with rfl | hbefore
  · exact List.mem_map_of_mem hmem
  · exact List.mem_of_mem_take hbefore

/-! ## Calls end -/

theorem callErrors_ends : CallErrors fun err => err ≠ .callDepth ∧ ∀ g, err ≠ .unknownFunction g where
  unbound _ := ⟨nofun, nofun⟩
  mismatch _ _ := ⟨nofun, nofun⟩
  arity _ _ _ := ⟨nofun, nofun⟩

theorem find?_ne_none (hf : f ∈ t.names) : t.find? f ≠ none := by
  obtain ⟨d, hd, rfl⟩ := List.mem_map.mp hf
  unfold find?
  rw [Ne, List.find?_eq_none]
  exact fun hnone => hnone d hd (beq_self_eq_true _)

/-- **A call of a function of the table ends.** -/
theorem Stratified.ends_call (h : t.Stratified) (hself : t.NoneAppliesItself) (hf : f ∈ t.names)
    (args : List Value) : Ends (t.call f args) := by
  have hrec := h.nonRecursive hself
  exact hrec.plain_call.failsWith callErrors_ends (Q := (· ∈ t.names))
    (fun _ _ _ hfg => h.mem_of_invokes hfg) (fun f hf hnone => absurd hnone (find?_ne_none hf))
    (hrec.nestsWithin f) hf args

/-- The evaluation of a term over the functions of the table ends. -/
theorem Stratified.ends_eval (h : t.Stratified) (hself : t.NoneAppliesItself) {e : Term}
    (he : OnApplied (· ∈ t.names) e) (env : Env) : Ends (t.eval env e) := by
  rw [eval_eq_valueIn]
  exact Term.valueIn_failsWith callErrors_ends.toOwnErrors e fun f hf => h.ends_call hself (he f hf)

/-- A call is answered in the same way under every limit that allows for as many nested calls as the
table has functions, and one more. -/
theorem NonRecursive.callWithin_eq_call (h : t.NonRecursive) (hn : t.size < n) :
    t.callWithin n f = t.call f := by
  have hlimit : t.size + 1 ≤ t.callLimit := by
    unfold callLimit
    omega
  unfold call
  rw [callWithin_eq_of_le (h.nestsWithin f) hn, callWithin_eq_of_le (h.nestsWithin f) hlimit]

end SortedRewriting.FunctionTable
