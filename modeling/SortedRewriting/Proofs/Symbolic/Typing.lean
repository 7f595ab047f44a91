import SortedRewriting.Proofs.Symbolic.Walking

/-!
# Typing

Well-typed terms over typed functions and variables (`Term.HasType`).

* `Term.HasType.ty_eq`: the type of a well-typed term can be read off it.
* **`Term.HasType.calls_declared`**: a well-typed term applies declared functions only.
-/

namespace SortedRewriting

/-- The types of the parameters and of the result of each function. -/
abbrev Signature := String → Option (List Ty × Ty)

namespace Term

/-- Well-typed terms over typed functions and variables. -/
inductive HasType (functions : Signature) (context : String → Option Ty) : Term → Ty → Prop
  | const {l v} : HasType functions context (.const l v) v.ty
  | var {l name ty} (declared : context name = some ty) :
      HasType functions context (.var l name ty) ty
  | node {l tag cs width} (tag_int : HasType functions context tag .int)
      (children : ∀ c ∈ cs, HasType functions context c .tree) :
      HasType functions context (.node l tag cs width) .tree
  | select {l a i} (arg : HasType functions context a .tree) :
      HasType functions context (.select l a i) .tree
  | tagOf {l a} (arg : HasType functions context a .tree) :
      HasType functions context (.tagOf l a) .int
  | test {l form a} (arg : HasType functions context a .tree) :
      HasType functions context (.test l form a) .bool
  | eq {l a b ty} (left : HasType functions context a ty) (right : HasType functions context b ty) :
      HasType functions context (.eq l a b) .bool
  | join {l op} {as : List Term} (args : ∀ a ∈ as, HasType functions context a .bool) :
      HasType functions context (.join l op as) .bool
  | not {l a} (arg : HasType functions context a .bool) :
      HasType functions context (.not l a) .bool
  | ite {l c y n ty} (cond : HasType functions context c .bool)
      (yes : HasType functions context y ty) (no : HasType functions context n ty) :
      HasType functions context (.ite l c y n) ty
  | arith {l op a b} (left : HasType functions context a .int)
      (right : HasType functions context b .int) : HasType functions context (.arith l op a b) .int
  | apply {l f ty} {as : List Term} {params : List Ty} (declared : functions f = some (params, ty))
      (arity : as.length = params.length)
      (args : ∀ a p, (a, p) ∈ as.zip params → HasType functions context a p) :
      HasType functions context (.apply l f as ty) ty

variable {F : Signature} {C : String → Option Ty}

/-! ## Typing and called functions -/

/-- The type of a term can be read off it. -/
theorem HasType.ty_eq {t : Term} {ty : Ty} (h : HasType F C t ty) : t.ty = ty := by
  induction h with
  | ite _ _ _ _ ih _ => rw [Term.ty, ih]
  | _ => rfl

/-- Well typed, with whatever type. -/
def Typed (F : Signature) (C : String → Option Ty) (t : Term) : Prop := ∃ ty, HasType F C t ty

/-- The arguments of a well-typed application are well typed. -/
theorem typed_of_zip {as : List Term} {params : List Ty} (arity : as.length = params.length)
    (args : ∀ a p, (a, p) ∈ as.zip params → HasType F C a p) : ∀ a ∈ as, Typed F C a := by
  intro a ha
  obtain ⟨i, hi, rfl⟩ := List.getElem_of_mem ha
  have hzip : i < (as.zip params).length := by
    rw [List.length_zip]
    omega
  refine ⟨params[i], args _ _ ?_⟩
  rw [← List.getElem_zip (h := hzip)]
  exact List.getElem_mem hzip

/-- The operands of a well-typed term are well typed. -/
theorem Typed.operand {a t : Term} (h : Typed F C t) (ha : a ∈ t.operands) : Typed F C a := by
  obtain ⟨_, h⟩ := h
  cases h with
  | const | var => cases ha
  | node tag_int children =>
    rcases List.mem_cons.mp ha with rfl | ha
    · exact ⟨_, tag_int⟩
    · exact ⟨_, children a ha⟩
  | select arg | tagOf arg | test arg | not arg =>
    cases List.mem_singleton.mp ha
    exact ⟨_, arg⟩
  | eq left right | arith left right =>
    rcases List.mem_cons.mp ha with rfl | ha
    · exact ⟨_, left⟩
    · cases List.mem_singleton.mp ha
      exact ⟨_, right⟩
  | join args => exact ⟨_, args a ha⟩
  | ite cond yes no =>
    rcases List.mem_cons.mp ha with rfl | ha
    · exact ⟨_, cond⟩
    rcases List.mem_cons.mp ha with rfl | ha
    · exact ⟨_, yes⟩
    · cases List.mem_singleton.mp ha
      exact ⟨_, no⟩
  | apply declared arity args => exact typed_of_zip arity args a ha

/-- Every node of the unfolding of a well-typed term is well typed. -/
theorem Typed.of_occursIn {t u : Term} (h : Typed F C t) (hu : OccursIn u t) : Typed F C u := by
  induction hu with
  | self => exact h
  | operand mem _ ih => exact ih (h.operand mem)

/-- **A well-typed term applies declared functions only.** -/
theorem HasType.calls_declared {t : Term} {ty : Ty} (h : HasType F C t ty) {f : String}
    (hf : f ∈ t.calledFunctions) : ∃ sig, F f = some sig := by
  obtain ⟨u, hocc, hfu⟩ := mem_calledFunctions_iff.mp hf
  obtain ⟨_, hu⟩ := Typed.of_occursIn ⟨ty, h⟩ hocc
  cases hu with
  | apply declared arity args =>
    cases hfu
    exact ⟨_, declared⟩
  | _ => exact absurd hfu nofun

end Term

end SortedRewriting
