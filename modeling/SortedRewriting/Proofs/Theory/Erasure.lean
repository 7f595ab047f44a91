import Mathlib.Logic.Equiv.Basic
import SortedRewriting.Proofs.Theory.Substitution

/-!
# Elaboration and erasure

An expression is `Bare` when none of its applications, also inside sorts, has a sort for a child.
Erasure makes expressions bare, and elaboration does not look at what erasure takes away.

* `Expr.bare_erase`, `Expr.Bare.erase_eq`: what is erased is bare, and what is bare stays as it is.
* **`Theory.elaborateExpr_erase`**: an expression and its erasure have the same elaboration, or the
  same error.
* `Theory.Consistent.elaborateExpr_idempotent`, `Theory.Consistent.erase_elaborated`: what is
  elaborated stays as it is, and has the erasure that it had before.
* **`Theory.Made.elaboration_inverts_erasure`**: elaboration and erasure are inverse to each other,
  between the bare expressions that can be elaborated and the expressions that stay as they are.
-/

namespace SortedRewriting

namespace Expr

variable {e : Expr} {k : Kind} {s : String} {as : List Expr}

/-- The children that are no sorts. -/
def termsOf (as : List Expr) : List Expr := as.filter (!·.isSort)

theorem mem_termsOf_iff {a : Expr} : a ∈ termsOf as ↔ a ∈ as ∧ a.isSort = false := by
  simp [termsOf]

theorem termsOf_eq_self (h : ∀ a ∈ as, a.isSort = false) : termsOf as = as :=
  List.filter_eq_self.mpr fun a ha => by simp [h a ha]

/-! ## Erasure, node by node -/

theorem erase_app : (Expr.node .app s as).erase = .node .app s ((termsOf as).map erase) := by
  rw [erase, eraseTerms_eq_map, termsOf]

theorem erase_node (hk : k ≠ .app) : (Expr.node k s as).erase = .node k s (as.map erase) := by
  cases k with
  | app => exact absurd rfl hk
  | var => rw [erase, eraseAll_eq_map]; nofun
  | sort => rw [erase, eraseAll_eq_map]; nofun

@[simp] theorem isSort_erase (e : Expr) : e.erase.isSort = e.isSort := by
  obtain ⟨k, s, as⟩ := e
  by_cases hk : k = .app
  · subst hk
    rw [erase_app]
    rfl
  · rw [erase_node hk]
    rfl

/-! ## Well-formed expressions -/

/-- An application may have a sort for its first child only. -/
theorem checkShape_app_iff : checkShape .app s as = .ok () ↔
    s ≠ "" ∧ ∀ a ∈ as.drop 1, a.isSort = false := by
  unfold checkShape
  by_cases hs : s.isEmpty = true
  · rw [if_pos hs]
    exact ⟨nofun, fun h => absurd (String.isEmpty_iff.mp hs) h.1⟩
  · rw [if_neg hs, ← List.findIdx?_eq_none_iff]
    have hs : s ≠ "" := fun h => hs (String.isEmpty_iff.mpr h)
    cases hidx : (as.drop 1).findIdx? isSort with
    | some i => simp
    | none => simp [hs]

/-- The operands of a well-formed application are its terms. -/
theorem WellFormed.operands_eq (h : WellFormed (.node .app s as)) :
    (splitSort as).2 = termsOf as := by
  obtain ⟨-, hterms⟩ := checkShape_app_iff.mp (wellFormed_node_iff.mp h).1
  cases as with
  | nil => rfl
  | cons a as =>
    by_cases ha : a.isSort = true
    · rw [splitSort_cons ha, termsOf, List.filter_cons_of_neg (by simp [ha])]
      exact (termsOf_eq_self hterms).symm
    · rw [splitSort, if_neg ha]
      exact (termsOf_eq_self (List.forall_mem_cons.mpr ⟨eq_false_of_ne_true ha, hterms⟩)).symm

/-- Without a sort among them, all children are operands. -/
theorem operands_of_terms (h : ∀ a ∈ as, a.isSort = false) : (splitSort as).2 = as := by
  cases as with
  | nil => rfl
  | cons a as => rw [splitSort, if_neg (by simp [h a List.mem_cons_self])]

theorem isSort_of_mem_erased {a : Expr} (h : a ∈ (termsOf as).map erase) : a.isSort = false := by
  obtain ⟨b, hb, rfl⟩ := List.mem_map.mp h
  rw [isSort_erase]
  exact (mem_termsOf_iff.mp hb).2

/-- Erasure keeps an expression well formed. -/
theorem WellFormed.erase (h : e.WellFormed) : e.erase.WellFormed := by
  induction e with
  | node k s as ih =>
    obtain ⟨hshape, hargs⟩ := wellFormed_node_iff.mp h
    by_cases hk : k = .app
    · subst hk
      obtain ⟨hs, -⟩ := checkShape_app_iff.mp hshape
      rw [erase_app]
      refine .node (checkShape_app_iff.mpr ⟨hs, fun a ha => ?_⟩) fun a ha => ?_
      · exact isSort_of_mem_erased (List.mem_of_mem_drop ha)
      · obtain ⟨b, hb, rfl⟩ := List.mem_map.mp ha
        have hb := (mem_termsOf_iff.mp hb).1
        exact ih b hb (hargs b hb)
    · rw [erase_node hk]
      refine .node ?_ (List.forall_mem_map.mpr fun a ha => ih a ha (hargs a ha))
      rw [← hshape]
      refine checkShape_congr ?_
      rw [List.map_map]
      exact List.map_congr_left fun a _ => isSort_erase a

/-! ## Bare expressions -/

/-- No application in the expression has a sort for a child. -/
def Bare (e : Expr) : Prop :=
  ∀ s as, IsSubterm (.node .app s as) e → ∀ a ∈ as, a.isSort = false

theorem bare_node_iff : Bare (.node k s as) ↔
    (k = .app → ∀ a ∈ as, a.isSort = false) ∧ ∀ a ∈ as, a.Bare := by
  constructor
  · intro h
    exact ⟨fun hk => h s as (hk ▸ .refl _), fun a ha s' as' hsub =>
      h s' as' (hsub.trans (isSubterm_arg ha))⟩
  · rintro ⟨hnode, hargs⟩ s' as' hsub
    rcases isSubterm_node_iff.mp hsub with heq | ⟨a, ha, hsub⟩
    · cases heq
      exact hnode rfl
    · exact hargs a ha s' as' hsub

/-- **What is erased is bare.** -/
theorem bare_erase (e : Expr) : e.erase.Bare := by
  induction e with
  | node k s as ih =>
    by_cases hk : k = .app
    · subst hk
      rw [erase_app]
      refine bare_node_iff.mpr ⟨fun _ a => isSort_of_mem_erased, fun a ha => ?_⟩
      obtain ⟨b, hb, rfl⟩ := List.mem_map.mp ha
      exact ih b (mem_termsOf_iff.mp hb).1
    · rw [erase_node hk]
      exact bare_node_iff.mpr ⟨fun hk' => absurd hk' hk, List.forall_mem_map.mpr ih⟩

/-- What is bare stays as it is. -/
theorem Bare.erase_eq (h : e.Bare) : e.erase = e := by
  induction e with
  | node k s as ih =>
    obtain ⟨hnode, hargs⟩ := bare_node_iff.mp h
    have hmap : as.map Expr.erase = as :=
      (List.map_congr_left fun a ha => ih a ha (hargs a ha)).trans as.map_id
    by_cases hk : k = .app
    · subst hk
      rw [erase_app, termsOf_eq_self (hnode rfl), hmap]
    · rw [erase_node hk, hmap]

end Expr

namespace Theory

open SortedRewriting.Expr (splitSort termsOf)

variable {t t' : Theory} {e e' : Expr} {s : String} {as bs : List Expr}

/-! ## Elaboration does not look at annotations -/

/-- Two lists are elaborated alike if their elements are, one by one. -/
theorem elaborateAll_congr
    (h : List.Forall₂ (fun a b => t.elaborateExpr a = t'.elaborateExpr b) as bs) :
    t.elaborateAll as = t'.elaborateAll bs := by
  induction h with
  | nil => rfl
  | cons hab _ ih => rw [elaborateAll, elaborateAll, hab, ih]

/-- **An expression is elaborated like its erasure**, to the same term or with the same error. -/
theorem elaborateExpr_erase (he : e.WellFormed) :
    t.elaborateExpr e.erase = t.elaborateExpr e := by
  induction e with
  | node k s as ih =>
    have hargs := (Expr.wellFormed_node_iff.mp he).2
    by_cases hk : k = .app
    · subst hk
      rw [Expr.erase_app, elaborateExpr_app, elaborateExpr_app, he.operands_eq,
        Expr.operands_of_terms fun a => Expr.isSort_of_mem_erased]
      refine congrArg (· >>= _) (elaborateAll_congr ?_)
      rw [List.forall₂_map_left_iff, List.forall₂_same]
      intro a ha
      have ha := (Expr.mem_termsOf_iff.mp ha).1
      exact ih a ha (hargs a ha)
    · rw [Expr.erase_node hk, elaborateExpr_node hk, elaborateExpr_node hk]
      refine congrArg (· >>= _) (elaborateAll_congr ?_)
      rw [List.forall₂_map_left_iff, List.forall₂_same]
      exact fun a ha => ih a ha (hargs a ha)

/-! ## What elaboration makes -/

theorem Consistent.isSort_of_infer (ht : t.Consistent) {sort : Expr}
    (h : t.infer s as = .ok sort) : sort.isSort = true :=
  Theory.isSort_of_infer (fun decl hdecl => (ht s decl hdecl).2) h

/-- **What is elaborated stays as it is.** -/
theorem Consistent.elaborateExpr_idempotent (ht : t.Consistent) (h : t.elaborateExpr e = .ok e') :
    t.elaborateExpr e' = .ok e' := by
  induction e generalizing e' with
  | node k s as ih =>
    have hself : ∀ as₀ bs, (∀ a ∈ as₀, a ∈ as) →
        List.Forall₂ (fun a b => t.elaborateExpr a = .ok b) as₀ bs →
          List.Forall₂ (fun a b => t.elaborateExpr a = .ok b) bs bs := by
      intro as₀ bs hsub hall
      refine List.forall₂_same.mpr fun b hb => ?_
      obtain ⟨a, ha, hab⟩ := exists_of_mem_left hall.flip hb
      exact ih a (hsub a ha) hab
    by_cases hk : k = .app
    · subst hk
      obtain ⟨sort, operands, hoperands, hsort, hshape, rfl⟩ := elaborateExpr_app_eq_ok_iff.mp h
      refine elaborateExpr_app_eq_ok_iff.mpr ⟨sort, operands, ?_, hsort, hshape, rfl⟩
      rw [Expr.splitSort_cons (ht.isSort_of_infer hsort)]
      exact hself _ operands (fun _ => Expr.mem_of_mem_splitSort) hoperands
    · obtain ⟨bs, hbs, hshape, rfl⟩ := (elaborateExpr_eq_ok_iff hk).mp h
      exact (elaborateExpr_eq_ok_iff hk).mpr ⟨bs, hself as bs (fun _ ha => ha) hbs, hshape, rfl⟩

/-- **What is elaborated has the erasure that it had before.** -/
theorem Consistent.erase_elaborated (ht : t.Consistent) (he : e.WellFormed)
    (h : t.elaborateExpr e = .ok e') : e'.erase = e.erase := by
  induction e generalizing e' with
  | node k s as ih =>
    have hargs := (Expr.wellFormed_node_iff.mp he).2
    have herase : ∀ as₀ bs, (∀ a ∈ as₀, a ∈ as) →
        List.Forall₂ (fun a b => t.elaborateExpr a = .ok b) as₀ bs →
          as₀.map Expr.erase = bs.map Expr.erase := by
      intro as₀ bs hsub hall
      refine List.forall₂_eq_eq_eq ▸ ?_
      rw [List.forall₂_map_left_iff, List.forall₂_map_right_iff]
      exact forall₂_imp_mem hall fun a ha b _ hab =>
        (ih a (hsub a ha) (hargs a (hsub a ha)) hab).symm
    by_cases hk : k = .app
    · subst hk
      obtain ⟨sort, operands, hoperands, hsort, -, rfl⟩ := elaborateExpr_app_eq_ok_iff.mp h
      rw [he.operands_eq] at hoperands
      -- elaborated operands are terms, like the operands
      have hterms : ∀ b ∈ operands, b.isSort = false := by
        intro b hb
        obtain ⟨a, ha, hab⟩ := exists_of_mem_left hoperands.flip hb
        exact (isSort_of_elaborateExpr hab).trans (Expr.mem_termsOf_iff.mp ha).2
      rw [Expr.erase_app, Expr.erase_app, termsOf,
        List.filter_cons_of_neg (by simp [ht.isSort_of_infer hsort]), ← termsOf,
        Expr.termsOf_eq_self hterms,
        herase _ operands (fun _ ha => (Expr.mem_termsOf_iff.mp ha).1) hoperands]
    · obtain ⟨bs, hbs, -, rfl⟩ := (elaborateExpr_eq_ok_iff hk).mp h
      rw [Expr.erase_node hk, Expr.erase_node hk, herase as bs (fun _ ha => ha) hbs]

/-! ## Inverse bijections -/

/-- A bare expression that can be elaborated. -/
def BareElaborable (t : Theory) (e : Expr) : Prop :=
  e.WellFormed ∧ e.Bare ∧ ∃ e', t.elaborateExpr e = .ok e'

/-- An expression that elaboration leaves as it is. -/
def Fixed (t : Theory) (e : Expr) : Prop := t.elaborateExpr e = .ok e

theorem Made.wellFormed_of_fixed (ht : t.Made) (h : t.Fixed e) : e.WellFormed :=
  elaborateExpr_wellFormed ht.sound.ops e h

/-- Erasure of what elaboration leaves as it is. -/
def Made.eraseFixed (ht : t.Made) (e : {e // t.Fixed e}) : {e // t.BareElaborable e} :=
  have he := ht.wellFormed_of_fixed e.2
  ⟨e.1.erase, he.erase, e.1.bare_erase, e.1, (elaborateExpr_erase he).trans e.2⟩

/-- Elaboration gives back what was erased. -/
theorem Made.elaborateExpr_eraseFixed (ht : t.Made) (e : {e // t.Fixed e}) :
    t.elaborateExpr (ht.eraseFixed e).1 = .ok e.1 :=
  (elaborateExpr_erase (ht.wellFormed_of_fixed e.2)).trans e.2

/-- Erasure goes to each bare expression that can be elaborated, from one expression. -/
theorem Made.bijective_eraseFixed (ht : t.Made) : Function.Bijective ht.eraseFixed := by
  constructor
  · intro e e' h
    have helaborate := ht.elaborateExpr_eraseFixed e'
    rw [← h, ht.elaborateExpr_eraseFixed e] at helaborate
    exact Subtype.ext (Except.ok.inj helaborate)
  · rintro ⟨e, he, hbare, e', h⟩
    refine ⟨⟨e', ht.consistent.elaborateExpr_idempotent h⟩, Subtype.ext ?_⟩
    exact (ht.consistent.erase_elaborated he h).trans hbare.erase_eq

/-- **Elaboration and erasure are inverse to each other.** Annotations, also wrong ones, make no
difference to elaboration, which leaves behind expressions that it does not change any more. -/
theorem Made.elaboration_inverts_erasure (ht : t.Made) :
    (∀ e : Expr, e.WellFormed → t.elaborateExpr e.erase = t.elaborateExpr e ∧
      ∀ e', t.elaborateExpr e = .ok e' → t.elaborateExpr e' = .ok e' ∧ e'.erase = e.erase) ∧
    ∃ φ : {e // t.BareElaborable e} ≃ {e // t.Fixed e},
      (∀ e, t.elaborateExpr e.1 = .ok (φ e).1) ∧ ∀ e, (φ.symm e).1 = e.1.erase := by
  refine ⟨fun e he => ⟨elaborateExpr_erase he, fun e' h =>
    ⟨ht.consistent.elaborateExpr_idempotent h, ht.consistent.erase_elaborated he h⟩⟩, ?_⟩
  let ψ := Equiv.ofBijective ht.eraseFixed ht.bijective_eraseFixed
  refine ⟨ψ.symm, fun e => ?_, fun _ => rfl⟩
  calc t.elaborateExpr e.1
      = t.elaborateExpr (ψ (ψ.symm e)).1 := by rw [ψ.apply_symm_apply]
    _ = .ok (ψ.symm e).1 := ht.elaborateExpr_eraseFixed (ψ.symm e)

end Theory

open Arrows in
/-- The identity of an image, with a wrong sort and an image that has none. It is elaborated like
the bare identity, and both are elaborated to the one with the inferred sorts. -/
theorem Theory.Made.elaboration_inverts_erasure_identity : ∃ t T : Theory,
    t.Made ∧ t.elaborate = .ok T ∧
    let image₀ : Expr := .node .app "F" [objectVar "x"]
    let bare : Expr := .node .app "id" [image₀]
    let elaborated := identity (arrows (image (objectVar "x")) (image (objectVar "x")))
      (image (objectVar "x"))
    T.elaborateExpr (identity object image₀) = .ok elaborated ∧
    T.elaborateExpr elaborated = .ok elaborated ∧ elaborated.erase = bare ∧
    ∃ φ : {e // T.BareElaborable e} ≃ {e // T.Fixed e}, ∃ b, b.1 = bare ∧ (φ b).1 = elaborated := by
  obtain ⟨t, T, ht, hT, hwrong⟩ := exists_elaborated (P := fun T =>
      T.elaborateExpr (identity object (.node .app "F" [objectVar "x"])) =
        .ok (identity (arrows (image (objectVar "x")) (image (objectVar "x")))
          (image (objectVar "x")))) (by decide +kernel)
  obtain ⟨hsame, φ, hφ, -⟩ := Theory.Made.elaboration_inverts_erasure (ht.elaborated hT)
  have hwf : (identity object (.node .app "F" [objectVar "x"])).WellFormed := by decide +kernel
  obtain ⟨hbare, helaborated⟩ := hsame _ hwf
  obtain ⟨hself, herase⟩ := helaborated _ hwrong
  refine ⟨t, T, ht, hT, hwrong, hself, herase, φ, ?_⟩
  refine ⟨⟨_, hwf.erase, Expr.bare_erase _, _, hbare.trans hwrong⟩, rfl, ?_⟩
  exact Except.ok.inj ((hφ _).symm.trans (hbare.trans hwrong))

end SortedRewriting
