import Mathlib.Data.List.Perm.Subperm
import Mathlib.Logic.Relation
import SortedRewriting.Proofs.Symbolic.Unfolding

/-!
# How deeply calls nest

A function *invokes* the functions that its body applies (`FunctionTable.Invokes`), called or not. A
table is *non-recursive* if no function invokes itself, directly or through others.

* **`FunctionTable.NonRecursive.nestsWithin`**: then calls nest no deeper than the table is long, one
  call of an unknown function aside.
* `FunctionTable.nonRecursive_of_rank`: a table is non-recursive if every function is ranked above
  those it invokes.
-/

namespace SortedRewriting.FunctionTable

open Relation (TransGen)

/-- The body of the function `f` applies the function `g`. -/
def Invokes (t : FunctionTable) (f g : String) : Prop :=
  ∃ d, t.find? f = some d ∧ d.body.Applies g

/-- No function invokes itself, directly or through others. -/
def NonRecursive (t : FunctionTable) : Prop := ∀ f, ¬ TransGen t.Invokes f f

/-- Calls nest at most `n` deep below a call of `f`, this one included. -/
def NestsWithin (t : FunctionTable) : Nat → String → Prop
  | 0, _ => False
  | n + 1, f => ∀ g, t.Invokes f g → t.NestsWithin n g

variable {t : FunctionTable} {f g : String}

/-- What a name stands for is a definition of that name. -/
theorem mem_of_find?_eq_some {d : FunDef} (h : t.find? f = some d) : d ∈ t.defs ∧ d.name = f := by
  unfold find? at h
  have hname := List.find?_some h
  exact ⟨List.mem_of_find?_eq_some h, eq_of_beq hname⟩

theorem Invokes.mem (h : t.Invokes f g) : f ∈ t.defs.map (·.name) := by
  obtain ⟨d, hd, -⟩ := h
  obtain ⟨hmem, rfl⟩ := mem_of_find?_eq_some hd
  exact List.mem_map_of_mem hmem

/-- The functions on the way to a call are different ones, so there are no more than the table
has. -/
theorem NonRecursive.nestsWithin_of_path (h : t.NonRecursive) {n : Nat} (path : List String)
    (distinct : path.Nodup) (leads : ∀ g ∈ path, g ∈ t.defs.map (·.name) ∧ TransGen t.Invokes g f)
    (room : t.size ≤ n + path.length) : t.NestsWithin (n + 1) f := by
  induction n generalizing f path with
  | zero =>
    intro g hg
    have hnew : f ∉ path := fun hf => h f (leads f hf).2
    have hsub : f :: path ⊆ t.defs.map (·.name) :=
      List.cons_subset.mpr ⟨hg.mem, fun g hg => (leads g hg).1⟩
    have hlen := (List.subperm_of_subset (List.nodup_cons.mpr ⟨hnew, distinct⟩) hsub).length_le
    rw [List.length_cons, List.length_map] at hlen
    unfold size at room
    omega
  | succ n ih =>
    intro g hg
    have hnew : f ∉ path := fun hf => h f (leads f hf).2
    refine ih (f :: path) (List.nodup_cons.mpr ⟨hnew, distinct⟩) ?_
      (by rw [List.length_cons]; omega)
    rintro k (_ | ⟨_, hk⟩)
    · exact ⟨hg.mem, .single hg⟩
    · exact ⟨(leads k hk).1, (leads k hk).2.tail hg⟩

/-- **Calls nest no deeper than the table is long.** -/
theorem NonRecursive.nestsWithin (h : t.NonRecursive) (f : String) : t.NestsWithin (t.size + 1) f :=
  h.nestsWithin_of_path [] List.nodup_nil (fun _ hg => absurd hg List.not_mem_nil)
    (Nat.le_add_right _ _)

/-- A table is non-recursive if every function is ranked above those it invokes. -/
theorem nonRecursive_of_rank (rank : String → Nat)
    (h : ∀ d ∈ t.defs, ∀ g, d.body.Applies g → rank g < rank d.name) : t.NonRecursive := by
  have hstep : ∀ {f g}, t.Invokes f g → rank g < rank f := by
    rintro f g ⟨d, hd, happ⟩
    obtain ⟨hmem, rfl⟩ := mem_of_find?_eq_some hd
    exact h d hmem g happ
  have hlt : ∀ {f g}, TransGen t.Invokes f g → rank g < rank f := by
    intro f g hfg
    induction hfg with
    | single h => exact hstep h
    | tail _ h ih => exact Nat.lt_trans (hstep h) ih
  exact fun f hf => Nat.lt_irrefl _ (hlt hf)

/-- For example, `double n = n + n`, where both operands are one node, and
`quadruple n = double (double n)`. -/
def doubling : FunctionTable where
  defs :=
    let n := Term.var 0 "n" .int
    [{ name := "double", params := [("n", .int)], result := .int, body := .arith 1 .add n n },
      { name := "quadruple", params := [("n", .int)], result := .int,
        body := .apply 2 "double" [.apply 1 "double" [n] .int] .int }]
  distinct := by decide

theorem nonRecursive_doubling : doubling.NonRecursive := by
  refine nonRecursive_of_rank String.length fun d hd g hg => ?_
  simp only [doubling, List.mem_cons, List.not_mem_nil, or_false] at hd
  rw [Term.applies_iff] at hg
  rcases hd with rfl | rfl
  · simp [Term.operands, Term.function?, Term.not_applies_var] at hg
  · have hdouble : g = "double" := by
      simp only [Term.operands, Term.function?, Option.some.injEq, List.mem_singleton,
        exists_eq_left] at hg
      rcases hg with rfl | hg
      · rfl
      · rw [Term.applies_iff] at hg
        simpa [Term.operands, Term.function?, Term.not_applies_var, eq_comm] using hg
    rw [hdouble]
    decide

end SortedRewriting.FunctionTable
