import SortedRewriting.Proofs.Theory.Sorting

/-!
# Replacing subterms of well-sorted expressions

`Expr.replaceAt` puts an expression in the place of a subterm. Nothing changes beside the path, and
the nodes above it keep their symbols and their other children, also the sorts that they carry.

* **`Theory.wellSorted_replaceAt_iff`**: so all depends on the applications above the path, whether
  each still carries the sort of its operands.
* **`Theory.Shielded.wellSorted`**: each does, if the path goes down into arguments that the
  declarations mention once, and the new expression has the sort of the old one.
-/

namespace SortedRewriting

/-! ## Replacing -/

namespace Expr

/-- The expression with another in the place of the subterm at a position. -/
def replaceAt (e : Expr) : Position → Expr → Expr
  | [], r => r
  | i :: p, r => .node e.kind e.sym (e.args.modify i fun a => a.replaceAt p r)

variable {e r u a : Expr} {k : Kind} {s : String} {as : List Expr} {i : Nat} {p q : Position}

theorem replaceAt_cons (ha : as[i]? = some a) : (Expr.node k s as).replaceAt (i :: p) r =
    .node k s (as.set i (a.replaceAt p r)) := by
  rw [replaceAt, args, List.modify_eq_set_getElem?, ha]
  rfl

/-- A term in the place of a term, or a sort in the place of a sort. -/
theorem isSort_replaceAt (hu : e.subterm? p = some u) (hr : r.isSort = u.isSort) :
    (e.replaceAt p r).isSort = e.isSort := by
  cases p with
  | nil =>
    cases hu
    exact hr
  | cons i p => rfl

/-- The shape rules still hold at the nodes above. -/
theorem checkShape_set (ha : as[i]? = some a) {b : Expr} (hb : b.isSort = a.isSort) :
    checkShape k s (as.set i b) = checkShape k s as := by
  refine checkShape_congr ?_
  obtain ⟨hi, rfl⟩ := List.getElem?_eq_some_iff.mp ha
  rw [List.map_set, hb]
  refine List.ext_getElem (by simp) fun j hj hj' => ?_
  rw [List.getElem_set]
  split
  · subst j
    rw [List.getElem_map]
  · rfl

/-- The sort that a term carries is not touched by a replacement in another child. -/
theorem sortOf?_replaceAt_succ (hk : k = .app) (ha : as[i + 1]? = some a) :
    ((Expr.node k s as).replaceAt ((i + 1) :: p) r).sortOf? = (Expr.node k s as).sortOf? := by
  subst hk
  rw [replaceAt_cons ha]
  cases as with
  | nil => exact absurd ha nofun
  | cons b bs =>
    rw [List.set_cons_succ]
    by_cases hb : b.isSort = true
    · rw [sortOf?_app hb, sortOf?_app hb]
    · show (splitSort (b :: _)).1 = (splitSort (b :: _)).1
      rw [splitSort, splitSort, if_neg hb, if_neg hb]

end Expr

/-- The argument at an index is declared by a variable that stands nowhere else in the
declaration. -/
def OpDecl.MentionsOnce (decl : OpDecl) (j : Nat) : Prop :=
  ∃ x S, decl.args[j]? = some (.node .var x [S]) ∧ x ∉ S.varNames ∧ x ∉ decl.sort.varNames ∧
    ∀ j' a, j' ≠ j → decl.args[j']? = some a → x ∉ a.varNames

namespace Theory

open Bindings (Assignment)

variable {ops : Operators} {T : Theory} {t r u : Expr} {p : Position}

/-! ## The applications above a path -/

/-- Every application strictly above the end of the path has a property. -/
def Above (P : String → List Expr → Prop) (t : Expr) (p : Position) : Prop :=
  ∀ q i rest, p = q ++ i :: rest → ∀ s as, t.subterm? q = some (.node .app s as) → P s as

variable {P : String → List Expr → Prop}

theorem above_nil : Above P t [] := by
  intro q i rest h
  exact absurd h.symm (by simp)

theorem above_cons_iff {k : Kind} {s : String} {as : List Expr} {a : Expr} {i : Nat}
    (ha : as[i]? = some a) :
    Above P (.node k s as) (i :: p) ↔ (k = .app → P s as) ∧ Above P a p := by
  constructor
  · refine fun h => ⟨?_, fun q j rest hp s' as' hq => ?_⟩
    · rintro rfl
      exact h [] i p rfl s as rfl
    · exact h (i :: q) j rest (by rw [hp, List.cons_append]) s' as'
        (Expr.subterm?_cons_iff.mpr ⟨a, ha, hq⟩)
  · rintro ⟨hhere, hbelow⟩ q j rest hp s' as' hq
    cases q with
    | nil =>
      cases hq
      exact hhere rfl
    | cons i' q =>
      rw [List.cons_append] at hp
      obtain ⟨rfl, hrest⟩ := List.cons.inj hp
      obtain ⟨a', ha', hq⟩ := Expr.subterm?_cons_iff.mp hq
      cases ha.symm.trans ha'
      exact hbelow q j rest hrest s' as' hq

/-- **A replacement keeps an expression well sorted, exactly if the applications above it are still
checked.** -/
theorem wellSorted_replaceAt_iff (ht : WellSorted ops t) (hr : WellSorted ops r)
    (hu : t.subterm? p = some u) (hsort : r.isSort = u.isSort) :
    WellSorted ops (t.replaceAt p r) ↔ Above (Checked ops) (t.replaceAt p r) p := by
  induction p generalizing t with
  | nil => exact ⟨fun _ => above_nil, fun _ => hr⟩
  | cons i p ih =>
    obtain ⟨k, s, as⟩ := t
    obtain ⟨a, ha, hu⟩ := Expr.subterm?_cons_iff.mp hu
    change as[i]? = some a at ha
    obtain ⟨shape, children, -⟩ := wellSorted_node_iff.mp ht
    have hi : i < as.length := (List.getElem?_eq_some_iff.mp ha).1
    have hnew : (as.set i (a.replaceAt p r))[i]? = some (a.replaceAt p r) :=
      List.getElem?_set_self hi
    rw [Expr.replaceAt_cons ha, above_cons_iff hnew, wellSorted_node_iff,
      ← ih (children a (List.mem_of_getElem? ha)) hu,
      Expr.checkShape_set ha (Expr.isSort_replaceAt hu hsort)]
    constructor
    · rintro ⟨-, hchildren, hchecked⟩
      exact ⟨hchecked, hchildren _ (List.mem_of_getElem? hnew)⟩
    · rintro ⟨hchecked, hchild⟩
      refine ⟨shape, fun b hb => ?_, hchecked⟩
      rcases List.mem_or_eq_of_mem_set hb with hb | rfl
      · exact children b hb
      · exact hchild

/-! ## Arguments that are mentioned once -/

/-- A path into arguments that the declarations mention once. -/
inductive Shielded (ops : Operators) : Expr → Position → Prop
  | root {t : Expr} : Shielded ops t []
  | argument {s : String} {as : List Expr} {decl : OpDecl} {j : Nat} {a : Expr} {p : Position}
      (declared : ops s = some decl) (once : decl.MentionsOnce j) (child : as[j + 1]? = some a)
      (below : Shielded ops a p) : Shielded ops (.node .app s as) ((j + 1) :: p)

variable {s : String} {as : List Expr} {decl : OpDecl} {j : Nat} {a b : Expr}

/-- An argument that is mentioned once may be any term of the sort. -/
theorem Checked.set (hops : WellDeclared ops) (hdecl : ops s = some decl)
    (hj : decl.MentionsOnce j) (h : Checked ops s as) (ha : as[j + 1]? = some a)
    (hb : b.sortOf? = a.sortOf?) : Checked ops s (as.set (j + 1) b) := by
  obtain ⟨decl', hdecl', σ, hall⟩ := h
  cases hdecl.symm.trans hdecl'
  obtain ⟨x, S, hx, hS, hsort, hothers⟩ := hj
  obtain ⟨hwfsort, hwfargs, -⟩ := hops s decl hdecl
  have hwf : ∀ p ∈ decl.sort :: decl.args, p.WellFormed :=
    List.forall_mem_cons.mpr ⟨hwfsort, hwfargs⟩
  let τ : Assignment := fun name => if name = x then some b else σ name
  have hτ : ∀ p : Expr, p.WellFormed → x ∉ p.varNames →
      ∀ e, Expr.Agrees σ p e → Expr.Agrees τ p e :=
    fun p hp hnot e h => h.congr hp fun name hname y hy => by
      have hne : name ≠ x := fun heq => hnot (heq ▸ hname)
      exact (if_neg hne).trans hy
  obtain ⟨hlen, hget⟩ := List.forall₂_iff_get.mp hall
  refine ⟨decl, hdecl, τ, List.forall₂_iff_get.mpr ⟨by rw [List.length_set]; exact hlen, ?_⟩⟩
  intro l hl hl'
  have hla : l < as.length := hlen ▸ hl
  have hagrees := hget l hl hla
  have hp := hwf _ (List.getElem_mem hl)
  simp only [List.get_eq_getElem] at hagrees ⊢
  by_cases hlj : l = j + 1
  · subst hlj
    have hpattern : (decl.sort :: decl.args)[j + 1] = .node .var x [S] := by
      rw [List.getElem_cons_succ]
      exact (List.getElem?_eq_some_iff.mp hx).2
    rw [hpattern] at hagrees hp ⊢
    rw [(List.getElem?_eq_some_iff.mp ha).2] at hagrees
    rw [List.getElem_set_self]
    obtain ⟨-, U, hU, hSU⟩ := Expr.agrees_var_iff.mp hagrees
    have hSwf := hp.subterm (Expr.isSubterm_arg List.mem_cons_self)
    exact Expr.agrees_var_iff.mpr ⟨if_pos rfl, U, hb.trans hU, hτ S hSwf hS U hSU⟩
  · rw [List.getElem_set_ne (Ne.symm hlj)]
    refine hτ _ hp ?_ _ hagrees
    cases l with
    | zero => exact hsort
    | succ l => exact hothers l _ (by omega) (List.getElem?_eq_getElem (by simpa using hl))

/-- **Down a path into arguments that are mentioned once, a term may be replaced by any term of its
sort.** -/
theorem Shielded.wellSorted (h : Shielded ops t p) (hops : WellDeclared ops)
    (ht : WellSorted ops t) (hr : WellSorted ops r) (hu : t.subterm? p = some u)
    (hkind : r.isSort = u.isSort) (hsort : r.sortOf? = u.sortOf?) :
    WellSorted ops (t.replaceAt p r) ∧ (t.replaceAt p r).sortOf? = t.sortOf? := by
  induction h with
  | root =>
    cases hu
    exact ⟨hr, hsort⟩
  | @argument s as decl j a p declared once child below ih =>
    obtain ⟨a', ha', hu⟩ := Expr.subterm?_cons_iff.mp hu
    cases child.symm.trans ha'
    obtain ⟨shape, children, checked⟩ := wellSorted_node_iff.mp ht
    obtain ⟨hchild, hchildsort⟩ := ih (children a (List.mem_of_getElem? child)) hu
    refine ⟨?_, Expr.sortOf?_replaceAt_succ rfl child⟩
    have hchecked := (checked rfl).set hops declared once child hchildsort
    rw [Expr.replaceAt_cons child]
    refine .node ?_ (fun b hb => ?_) fun _ => hchecked
    · rw [Expr.checkShape_set child (Expr.isSort_replaceAt hu hkind), shape]
    · rcases List.mem_or_eq_of_mem_set hb with hb | rfl
      · exact children b hb
      · exact hchild

end Theory

end SortedRewriting
