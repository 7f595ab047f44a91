import SortedRewriting.Proofs.Engine.Encoding
import SortedRewriting.Proofs.Theory.Annotation

/-!
# Elaborated terms with the same tree

An encoding drops the kind of every node. In an annotated term the first child still tells sorts
from other terms: applications and variables have a sort there, sorts have none. It does not tell a
variable from a constant of the same name and sort.

* `CodeBook.isSort_eq_of_encode_eq`: sorts and terms never have the same tree, whatever their
  symbols.
* **`CodeBook.eq_of_encode_eq`**: annotated terms with the same tree are equal, if no two of their
  symbols have one code and no name is that of a variable and of a constant.
-/

namespace SortedRewriting

/-- A name is that of a variable in the first expression, and of a constant in the second that
carries the same sort. -/
def Expr.SharesName (e e' : Expr) : Prop :=
  ∃ c S, Expr.IsSubterm (.node .var c [S]) e ∧ Expr.IsSubterm (.node .app c [S]) e'

theorem Expr.sharesName_iff {e e' : Expr} : e.SharesName e' ↔ ∃ u ∈ Expr.subtermsOf [e],
    u.kind = .var ∧ u.args.length = 1 ∧ Expr.node .app u.sym u.args ∈ Expr.subtermsOf [e'] := by
  simp only [mem_subtermsOf_iff, List.mem_singleton, exists_eq_left]
  constructor
  · rintro ⟨c, S, hvar, happ⟩
    exact ⟨_, hvar, rfl, rfl, happ⟩
  · rintro ⟨⟨k, c, as⟩, hvar, rfl, hlen, happ⟩
    obtain ⟨S, rfl⟩ := List.length_eq_one_iff.mp hlen
    exact ⟨c, S, hvar, happ⟩

instance (e e' : Expr) : Decidable (e.SharesName e') :=
  decidable_of_iff _ Expr.sharesName_iff.symm

namespace CodeBook

variable {b : CodeBook} {width : Nat} {k k' : Kind} {s s' : String} {as as' : List Expr}
  {e e' : Expr} {t : Theory}

/-- No two symbols of the expressions have one code. -/
def Distinguishes (b : CodeBook) (es : List Expr) : Prop :=
  ∀ sym sym', (∃ e ∈ es, sym ∈ e.symbols) → (∃ e ∈ es, sym' ∈ e.symbols) →
    b.code sym = b.code sym' → sym = sym'

theorem distinguishes_iff {es : List Expr} : b.Distinguishes es ↔
    ∀ sym ∈ es.flatMap (·.symbols.toList), ∀ sym' ∈ es.flatMap (·.symbols.toList),
      b.code sym = b.code sym' → sym = sym' := by
  simp only [List.mem_flatMap, Std.ExtTreeSet.mem_toList]
  exact ⟨fun h sym hsym sym' hsym' => h sym sym' hsym hsym',
    fun h sym sym' hsym hsym' => h sym hsym sym' hsym'⟩

instance (b : CodeBook) (es : List Expr) : Decidable (b.Distinguishes es) :=
  decidable_of_iff _ distinguishes_iff.symm

/-! ## Nodes -/

/-- An annotated term that is no sort has one for its first child. -/
theorem exists_sort_child (h : Expr.WellFormed (.node k s as))
    (hannotated : t.Annotated (.node k s as)) (hk : k ≠ .sort) :
    ∃ S rest, as = S :: rest ∧ S.isSort = true := by
  cases k with
  | var =>
    obtain ⟨S, rfl, hS, -⟩ := h.var_args
    exact ⟨S, [], rfl, hS⟩
  | app => exact ((Theory.annotated_node_iff.mp hannotated).1 rfl).2
  | sort => exact absurd rfl hk

/-! ## Terms -/

/-- **Sorts and terms never have the same tree.** Their first children would be a term and a sort
with the same tree again. -/
theorem isSort_eq_of_encode_eq (he : e.WellFormed) (he' : e'.WellFormed) (ht : t.Annotated e)
    (ht' : t.Annotated e') (hw : e.Within width) (hw' : e'.Within width)
    (h : b.encode width e = b.encode width e') : e.isSort = e'.isSort := by
  induction e generalizing e' with
  | node k s as ih =>
    obtain ⟨k', s', as'⟩ := e'
    obtain ⟨-, hall⟩ := encode_node_inj hw hw' h
    have hargs := (Expr.wellFormed_node_iff.mp he).2
    have hargs' := (Expr.wellFormed_node_iff.mp he').2
    have hchild : ∀ a rest a' rest', as = a :: rest → as' = a' :: rest' → a.isSort = a'.isSort := by
      rintro a rest a' rest' rfl rfl
      have ha : a ∈ a :: rest := List.mem_cons_self
      have ha' : a' ∈ a' :: rest' := List.mem_cons_self
      exact ih a ha (hargs a ha) (hargs' a' ha') (ht.subterm (Expr.isSubterm_arg ha))
        (ht'.subterm (Expr.isSubterm_arg ha')) (hw.arg ha) (hw'.arg ha') (List.forall₂_cons.mp hall).1
    by_cases hk : k = .sort
    · by_cases hk' : k' = .sort
      · rw [hk, hk']
        rfl
      · obtain ⟨S', rest', rfl, hS'⟩ := exists_sort_child he' ht' hk'
        obtain ⟨a, rest, -, -, rfl⟩ := List.forall₂_cons_right_iff.mp hall
        have hsort := hchild a rest S' rest' rfl rfl
        subst hk
        rw [he.sort_args List.mem_cons_self, hS'] at hsort
        cases hsort
    · by_cases hk' : k' = .sort
      · obtain ⟨S, rest, rfl, hS⟩ := exists_sort_child he ht hk
        obtain ⟨a', rest', -, -, rfl⟩ := List.forall₂_cons_left_iff.mp hall
        have hsort := hchild S rest a' rest' rfl rfl
        subst hk'
        rw [he'.sort_args List.mem_cons_self, hS] at hsort
        cases hsort
      · exact (decide_eq_false hk).trans (decide_eq_false hk').symm

/-- **Annotated terms with the same tree are equal**, if no two of their symbols have one code and
no name is that of a variable in one and of a constant in the other. -/
theorem eq_of_encode_eq (hcodes : b.Distinguishes [e, e']) (hnames : ¬ e.SharesName e')
    (hnames' : ¬ e'.SharesName e) (he : e.WellFormed) (he' : e'.WellFormed) (ht : t.Annotated e)
    (ht' : t.Annotated e') (hw : e.Within width) (hw' : e'.Within width)
    (h : b.encode width e = b.encode width e') : e = e' := by
  -- any two subterms with the same tree are equal
  have hsubterms : ∀ u : Expr, u.IsSubterm e → ∀ u' : Expr, u'.IsSubterm e' →
      b.encode width u = b.encode width u' → u = u' := by
    intro u hu
    induction u with
    | node k s as ih =>
      rintro ⟨k', s', as'⟩ hu' heq
      obtain ⟨hcode, hall⟩ := encode_node_inj (hw.subterm hu) (hw'.subterm hu') heq
      have hsym : s = s' := hcodes s s' ⟨e, by simp, Expr.mem_symbols_iff.mpr ⟨_, hu, rfl⟩⟩
        ⟨e', by simp, Expr.mem_symbols_iff.mpr ⟨_, hu', rfl⟩⟩ hcode
      have hargs : as = as' := List.forall₂_eq_eq_eq ▸ forall₂_imp_mem hall
        fun a ha a' ha' haa' => ih a ha (hu.arg ha) a' (hu'.arg ha') haa'
      have hsort := isSort_eq_of_encode_eq (he.subterm hu) (he'.subterm hu') (ht.subterm hu)
        (ht'.subterm hu') (hw.subterm hu) (hw'.subterm hu') heq
      subst hsym hargs
      cases k <;> cases k'
      case var.var | app.app | sort.sort => rfl
      case var.app =>
        obtain ⟨S, rfl, -⟩ := (he.subterm hu).var_args
        exact absurd ⟨s, S, hu, hu'⟩ hnames
      case app.var =>
        obtain ⟨S, rfl, -⟩ := (he'.subterm hu').var_args
        exact absurd ⟨s, S, hu', hu⟩ hnames'
      all_goals exact absurd hsort nofun
  exact hsubterms e (.refl e) e' (.refl e') h

/-- What an elaborated theory elaborates is determined by its tree in the same way. -/
theorem eq_of_encode_elaborated {e₀ e₀' : Expr} (made : t.Made) (helaborated : t.elaborated = true)
    (he : t.elaborateExpr e₀ = .ok e) (he' : t.elaborateExpr e₀' = .ok e')
    (hcodes : b.Distinguishes [e, e']) (hnames : ¬ e.SharesName e') (hnames' : ¬ e'.SharesName e)
    (h : b.encode width e = b.encode width e') (hne : b.encode width e ≠ .error) : e = e' :=
  eq_of_encode_eq hcodes hnames hnames' (Theory.elaborateExpr_wellFormed made.sound.ops _ he)
    (Theory.elaborateExpr_wellFormed made.sound.ops _ he')
    (made.elaborateExpr_annotated helaborated he) (made.elaborateExpr_annotated helaborated he')
    (within_of_encode_ne_error hne) (within_of_encode_ne_error (h ▸ hne)) h

end CodeBook

end SortedRewriting
