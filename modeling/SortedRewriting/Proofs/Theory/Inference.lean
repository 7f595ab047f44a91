import SortedRewriting.Proofs.Expr.Instances
import SortedRewriting.Proofs.Theory.Elaboration

/-!
# What is inferred

* `Theory.matchArgs_sound`, `Theory.matchArgs_complete`: matching the arguments of an operator
  succeeds exactly where the arguments are instances of the declared patterns under one assignment.
* **`Theory.infer_eq_ok_iff`**: for an operator whose declaration uses each variable with one sort,
  and whose result sort has no variables but those of the arguments (`OpDecl.Closed`), a sort is
  inferred exactly if sort and arguments together are an instance of the declaration.
-/

namespace SortedRewriting

open Bindings (Assignment failureName)

/-- The declaration uses each variable with one sort, and every variable of the result sort occurs
in an argument. -/
structure OpDecl.Closed (decl : OpDecl) : Prop where
  singleSorted : SingleSorted (decl.sort :: decl.args)
  bound : ∀ name ∈ decl.sort.varNames, ∃ a ∈ decl.args, name ∈ a.varNames

namespace Theory

variable {sym : String} {ps as : List Expr} {d d' : Bindings} {index : Nat} {σ : Assignment}

/-! ## Matching arguments -/

/-- Arguments that match are instances of their patterns under the bindings. -/
theorem matchArgs_sound (hlen : ps.length = as.length)
    (h : matchArgs sym index d ps as = .ok d') :
    List.Forall₂ (Expr.Agrees d'.get?) ps as ∧
      ∀ n x, d.get? n = some x → d'.get? n = some x := by
  induction ps generalizing as index d with
  | nil =>
    cases List.length_eq_zero_iff.mp hlen.symm
    cases h
    exact ⟨.nil, fun _ _ hx => hx⟩
  | cons p ps ih =>
    cases as with
    | nil => cases hlen
    | cons a as =>
      unfold matchArgs at h
      simp only at h
      split at h
      · cases h
      · rename_i hm
        split at h
        · cases h
        · rename_i hmerge
          obtain ⟨hagrees, -⟩ := Expr.matchWith_sound p a (eq_false_of_ne_true hm)
          obtain ⟨-, -, hget⟩ := Bindings.merge_sound (eq_false_of_ne_true hmerge)
          obtain ⟨hall, hle⟩ := ih (Nat.succ.inj hlen) h
          refine ⟨.cons ?_ hall, fun n x hx => hle n x ((hget n x).mpr (.inl hx))⟩
          exact hagrees.mono (fun n x hx => hle n x ((hget n x).mpr (.inr hx))) p a

/-- Instances of the patterns under one assignment match. -/
theorem matchArgs_complete (sym : String) (index : Nat) (hσ : σ failureName = none)
    (hd : d.Under σ) (h : List.Forall₂ (Expr.Agrees σ) ps as) :
    ∃ d', matchArgs sym index d ps as = .ok d' ∧ d'.Under σ := by
  induction h generalizing index d with
  | nil => exact ⟨d, rfl, hd⟩
  | @cons p a ps as hpa _ ih =>
    have hm := Expr.matchWith_complete hσ p a hpa
    have hmerge := hd.merge hm
    obtain ⟨d', hd', hunder⟩ := ih (index + 1) hmerge
    refine ⟨d', ?_, hunder⟩
    unfold matchArgs
    simp only
    rw [if_neg (ne_true_of_eq_false hm.ok), if_neg (ne_true_of_eq_false hmerge.ok)]
    exact hd'

/-! ## Inference -/

variable {t : Theory} {decl : OpDecl} {sort : Expr}

/-- What is inferred: the declared sort with the bindings of the arguments put in. -/
theorem infer_eq_matchArgs (hdecl : t.ops[sym]? = some decl)
    (hlen : decl.args.length = as.length) : t.infer sym as =
      matchArgs sym 0 .empty decl.args as >>= fun d => .ok (decl.sort.subst d) := by
  unfold infer
  rw [hdecl]
  exact if_neg (not_not_intro hlen)

theorem infer_eq_ok_iff_matchArgs (hdecl : t.ops[sym]? = some decl) :
    t.infer sym as = .ok sort ↔ decl.args.length = as.length ∧
      ∃ d, matchArgs sym 0 .empty decl.args as = .ok d ∧ sort = decl.sort.subst d := by
  by_cases hlen : decl.args.length = as.length
  · rw [infer_eq_matchArgs hdecl hlen, bind_eq_ok_iff]
    simp only [Except.ok.injEq, eq_comm (a := sort), hlen, true_and]
  · unfold infer
    rw [hdecl]
    simp only
    rw [if_pos hlen]
    exact ⟨nofun, fun h => absurd h.1 hlen⟩

/-- Where the variables of a declaration's arguments stand for subterms, the result sort has an
instance. -/
theorem agrees_sort_of_agrees_args (hwf : decl.sort.WellFormed)
    (hargs : ∀ p ∈ decl.args, p.WellFormed) (hclosed : decl.Closed)
    (h : List.Forall₂ (Expr.Agrees σ) decl.args as) :
    Expr.Agrees σ decl.sort (decl.sort.fill σ id) := by
  have harg : ∀ p ∈ decl.args,
      Expr.Respects σ id p ∧ ∀ name ∈ p.varNames, (σ name).isSome := by
    intro p hp
    obtain ⟨a, -, hpa⟩ := exists_of_mem_left h hp
    exact ((Expr.agrees_iff id (hargs p hp)).mp hpa).2
  have hrespects : Expr.Respects σ id decl.sort := by
    refine Expr.respects_of_singleSorted hclosed.singleSorted List.mem_cons_self ?_
    intro name hname _ _
    obtain ⟨p, hp, hname⟩ := hclosed.bound name hname
    exact ⟨p, List.mem_cons_of_mem _ hp, hname, (harg p hp).1⟩
  refine hrespects.agrees hwf fun name hname => ?_
  obtain ⟨p, hp, hname⟩ := hclosed.bound name hname
  exact (harg p hp).2 name hname

/-- **A sort is inferred exactly if sort and arguments are an instance of the declaration.** -/
theorem infer_eq_ok_iff (ht : t.OpsWellFormed) (hdecl : t.ops[sym]? = some decl)
    (hclosed : decl.Closed) : t.infer sym as = .ok sort ↔
      ∃ σ, List.Forall₂ (Expr.Agrees σ) (decl.sort :: decl.args) (sort :: as) := by
  obtain ⟨hwf, hargs⟩ := ht sym decl hdecl
  rw [infer_eq_ok_iff_matchArgs hdecl]
  constructor
  · rintro ⟨hlen, d, hd, rfl⟩
    obtain ⟨hall, -⟩ := matchArgs_sound hlen hd
    refine ⟨d.get?, .cons ?_ hall⟩
    rw [Expr.subst_eq_fill]
    exact agrees_sort_of_agrees_args hwf hargs hclosed hall
  · rintro ⟨σ, h⟩
    obtain ⟨hsort, hall⟩ := List.forall₂_cons.mp h
    -- no variable has the reserved name
    let σ₀ : Assignment := fun n => if n = failureName then none else σ n
    have hall₀ : List.Forall₂ (Expr.Agrees σ₀) decl.args as := by
      refine forall₂_imp_mem hall fun p hp a _ hpa => hpa.congr (hargs p hp) fun n hn x hx => ?_
      exact (if_neg ((hargs p hp).ne_failureName hn)).trans hx
    obtain ⟨d, hd, hunder⟩ := matchArgs_complete sym 0 (if_pos rfl)
      Bindings.under_empty hall₀
    obtain ⟨hall', -⟩ := matchArgs_sound hall.length_eq hd
    refine ⟨hall.length_eq, d, hd, ?_⟩
    have hsort' : Expr.Agrees d.get? decl.sort sort := by
      refine hsort.congr hwf fun n hn x hx => ?_
      obtain ⟨p, hp, hname⟩ := hclosed.bound n hn
      obtain ⟨rest, hsub⟩ := Expr.mem_varNames_iff.mp hname
      obtain ⟨a, -, hpa⟩ := exists_of_mem_left hall' hp
      obtain ⟨y, hy, -⟩ := hpa.binding (hargs p hp) hsub
      have hn₀ : σ₀ n = σ n := if_neg ((hargs p hp).ne_failureName hname)
      have hyx : some y = some x := ((hunder.binds n y hy).1.symm.trans hn₀).trans hx
      rw [hy, hyx]
    exact (Expr.subst_of_agrees _ _ hsort').symm

end Theory

end SortedRewriting
