import SortedRewriting.Proofs.Symbolic.Functions
import SortedRewriting.Transition.Checker

/-!
# Defining functions

A checker takes a function if it has bounds, the name is free and the body calls no functions but
those that are defined already, and the function itself.

* **`Checker.defineAll_of_layered`**: functions that call earlier ones only are all defined, in
  their order.
-/

namespace SortedRewriting

namespace Checker

theorem mayCall_iff {c : Checker} {f : FunDef} {name : String} :
    c.mayCall f name = true ↔ name = f.name ∨ name ∈ c.functions.defs.map (·.name) := by
  unfold mayCall FunctionTable.contains
  rw [Bool.or_eq_true, beq_iff_eq, List.any_eq_true, List.mem_map]
  simp only [beq_iff_eq]

/-- Functions in layers are defined one after the other. -/
theorem defineAll_of_layered {c : Checker} (hb : c.bounds?.isSome = true) {fs : List FunDef}
    (h : Layered c.functions.defs fs)
    (distinct : ((c.functions.defs ++ fs).map (·.name)).Nodup) :
    ∃ t : FunctionTable, t.defs = c.functions.defs ++ fs ∧
      c.defineAll fs = ({ c with functions := t }, none) := by
  induction fs generalizing c with
  | nil => exact ⟨c.functions, (List.append_nil _).symm, rfl⟩
  | cons f fs ih =>
    have hnew : f.name ∉ c.functions.defs.map (·.name) := by
      intro hmem
      rw [List.map_append, List.nodup_append] at distinct
      exact distinct.2.2 _ hmem _ List.mem_cons_self rfl
    obtain ⟨t, ht, hdefs⟩ := FunctionTable.insert?_eq_some hnew
    have hcalls : f.body.calledFunctions.find? (!c.mayCall f ·) = none := by
      rw [List.find?_eq_none]
      intro name hname
      rw [mayCall_iff.mpr (.inr (h.calls hname))]
      exact nofun
    have hdefine : c.define f = .ok { c with functions := t } := by
      have hnone : c.bounds?.isNone = false := by
        rw [← Option.not_isSome, hb]
        rfl
      unfold define
      rw [hnone, hcalls, ht]
      rfl
    have hsplit : c.functions.defs ++ f :: fs = t.defs ++ fs := by
      rw [hdefs, List.append_assoc, List.singleton_append]
    obtain ⟨t', ht', hall⟩ := ih (c := { c with functions := t }) hb (hdefs ▸ h.2)
      (hsplit ▸ distinct)
    refine ⟨t', ht'.trans hsplit.symm, ?_⟩
    unfold defineAll
    rw [hdefine]
    exact hall

end Checker

end SortedRewriting
