import SortedRewriting.Proofs.Expr.Matching

/-!
# Instances of patterns

`Expr.Agrees σ p e` says that `e` is an instance of `p`. `Expr.fill` computes the instance: the
assigned expressions at the variables that have one, and the other variables under new names. An
assignment `Respects` sorts when the assigned expressions carry the sorts of their variables, with
the assignment filled in.

* `Expr.Agrees.fill_eq`: an instance is what is filled in.
* `Expr.Respects.sortOf?_fill`: filling in commutes with reading off the sort.
* **`Expr.agrees_iff`**: an instance is what is filled in, for an assignment that respects sorts and
  has all variables of the pattern.
* **`Expr.Agrees.fill`**: an instance stays one when expressions are filled in for its variables.
-/

namespace SortedRewriting.Expr

open Bindings (Assignment)

variable {σ τ : Assignment} {rename : String → String}

/-! ## Filling in -/

mutual

/-- The expression with the assigned expressions at its variables, and new names for the others. -/
def fill (σ : Assignment) (rename : String → String) : Expr → Expr
  | .node .var s as =>
    match σ s with
    | some x => x
    | none => .node .var (rename s) (fillAll σ rename as)
  | .node k s as => .node k s (fillAll σ rename as)

/-- Fills in each expression of a list. -/
def fillAll (σ : Assignment) (rename : String → String) : List Expr → List Expr
  | [] => []
  | a :: as => fill σ rename a :: fillAll σ rename as

end

@[simp] theorem fillAll_eq_map (σ : Assignment) (rename : String → String) (as : List Expr) :
    fillAll σ rename as = as.map (fill σ rename) := by
  induction as with
  | nil => rfl
  | cons a as ih => rw [fillAll, ih, List.map_cons]

theorem fill_of_assigned {s : String} {as : List Expr} {x : Expr} (h : σ s = some x) :
    (Expr.node .var s as).fill σ rename = x := by
  rw [fill, h]

theorem fill_of_free {s : String} {as : List Expr} (h : σ s = none) :
    (Expr.node .var s as).fill σ rename = .node .var (rename s) (as.map (fill σ rename)) := by
  rw [fill, h, fillAll_eq_map]

theorem fill_node {k : Kind} (hk : k ≠ .var) {s : String} {as : List Expr} :
    (Expr.node k s as).fill σ rename = .node k s (as.map (fill σ rename)) := by
  cases k with
  | var => exact absurd rfl hk
  | app => rw [fill, fillAll_eq_map]; nofun
  | sort => rw [fill, fillAll_eq_map]; nofun

/-- Terms are filled in for terms. -/
theorem isSort_fill {e : Expr}
    (hσ : ∀ name ∈ e.varNames, ∀ x, σ name = some x → x.isSort = false) :
    (e.fill σ rename).isSort = e.isSort := by
  obtain ⟨k, s, as⟩ := e
  by_cases hk : k = .var
  · subst hk
    cases hs : σ s with
    | some x =>
      rw [fill_of_assigned hs, hσ s (mem_varNames_iff.mpr ⟨as, .refl _⟩) x hs]
      rfl
    | none =>
      rw [fill_of_free hs]
      rfl
  · rw [fill_node hk]
    rfl

/-- A variable has a name and one child, its sort. -/
theorem checkShape_var_iff {s : String} {as : List Expr} :
    checkShape .var s as = .ok () ↔ s ≠ "" ∧ ∃ S, as = [S] ∧ S.isSort = true := by
  unfold checkShape
  by_cases hs : s.isEmpty = true
  · rw [if_pos hs]
    exact ⟨nofun, fun h => absurd (String.isEmpty_iff.mp hs) h.1⟩
  · rw [if_neg hs]
    have hs : s ≠ "" := fun h => hs (String.isEmpty_iff.mpr h)
    match as with
    | [] => exact ⟨nofun, fun ⟨_, S, h, _⟩ => absurd h nofun⟩
    | [S] =>
      by_cases hS : S.isSort = true
      · simp [hS, hs]
      · simp [hS]
    | _ :: _ :: _ => exact ⟨nofun, fun ⟨_, S, h, _⟩ => absurd h (by simp)⟩

/-- Substitution fills in what is bound, and keeps all names. -/
theorem subst_eq_fill (d : Bindings) (e : Expr) : e.subst d = e.fill d.get? id := by
  induction e with
  | node k s as ih =>
    have hargs := List.map_congr_left ih
    by_cases hk : k = .var
    · subst hk
      rw [subst, substAll_eq_map]
      cases hs : d.get? s with
      | some x => rw [fill_of_assigned hs]
      | none => rw [fill_of_free hs, hargs, id]
    · rw [fill_node hk, ← hargs]
      cases k with
      | var => exact absurd rfl hk
      | app => rw [subst, substAll_eq_map]; rintro ⟨⟩
      | sort => rw [subst, substAll_eq_map]; rintro ⟨⟩

/-! ## Instances -/

theorem agrees_var_iff {s : String} {sort e : Expr} : Agrees σ (.node .var s [sort]) e ↔
    σ s = some e ∧ ∃ T, e.sortOf? = some T ∧ Agrees σ sort T := Iff.rfl

/-- An instance is what is filled in. -/
theorem Agrees.fill_eq {p e : Expr} (h : Agrees σ p e) : p.fill σ rename = e := by
  induction p generalizing e with
  | node k s as ih =>
    by_cases hk : k = .var
    · subst hk
      exact fill_of_assigned h.1
    · obtain ⟨k', s', bs⟩ := e
      obtain ⟨rfl, rfl, hall⟩ := (agrees_node_iff hk).mp h
      have hargs : as.map (fill σ rename) = bs := by
        refine List.forall₂_eq_eq_eq ▸ List.forall₂_map_left_iff.mpr ?_
        exact forall₂_imp_mem hall fun a ha b _ hab => ih a ha hab
      rw [fill_node hk, hargs]

/-- The assigned expressions matter for the variables of the pattern only. -/
theorem Agrees.congr {p e : Expr} (hp : p.WellFormed) (h : Agrees σ p e)
    (hle : ∀ name ∈ p.varNames, ∀ x, σ name = some x → τ name = some x) : Agrees τ p e := by
  induction p generalizing e with
  | node k s as ih =>
    have hargs : ∀ a ∈ as, ∀ b, Agrees σ a b → Agrees τ a b := fun a ha b hab =>
      ih a ha ((wellFormed_node_iff.mp hp).2 a ha) hab fun name hname =>
        hle name (varNames_subset (isSubterm_arg ha) hname)
    by_cases hk : k = .var
    · subst hk
      obtain ⟨sort, rfl, -, -⟩ := hp.var_args
      obtain ⟨hs, T, hT, hsort⟩ := agrees_var_iff.mp h
      have hname : s ∈ (Expr.node .var s [sort]).varNames := mem_varNames_iff.mpr ⟨_, .refl _⟩
      exact agrees_var_iff.mpr ⟨hle s hname e hs, T, hT, hargs sort List.mem_cons_self T hsort⟩
    · obtain ⟨k', s', bs⟩ := e
      obtain ⟨rfl, rfl, hall⟩ := (agrees_node_iff hk).mp h
      exact (agrees_node_iff hk).mpr ⟨rfl, rfl, forall₂_imp_mem hall fun a ha b _ => hargs a ha b⟩

/-- A pattern and its instance are both sorts, or both terms. -/
theorem Agrees.isSort_eq {p e : Expr} (h : Agrees σ p e) : e.isSort = p.isSort := by
  obtain ⟨k, s, as⟩ := p
  by_cases hk : k = .var
  · subst hk
    obtain ⟨-, T, hT, -⟩ := h
    exact isSort_of_sortOf? hT
  · obtain ⟨k', s', bs⟩ := e
    obtain ⟨rfl, -, -⟩ := (agrees_node_iff hk).mp h
    rfl

theorem splitSort_cons {sort : Expr} (h : sort.isSort = true) (as : List Expr) :
    splitSort (sort :: as) = (some sort, as) :=
  if_pos h

/-- The operands of an application are among its children. -/
theorem mem_of_mem_splitSort {a : Expr} {as : List Expr} (h : a ∈ (splitSort as).2) : a ∈ as := by
  cases as with
  | nil => exact h
  | cons b as =>
    rw [splitSort] at h
    split at h
    · exact List.mem_cons_of_mem _ h
    · exact h

theorem sortOf?_app {s : String} {sort : Expr} (h : sort.isSort = true) (as : List Expr) :
    (Expr.node .app s (sort :: as)).sortOf? = some sort :=
  congrArg Prod.fst (splitSort_cons h as)

theorem args_of_sortOf? {e sort : Expr} (h : e.sortOf? = some sort) : e.args[0]? = some sort := by
  obtain ⟨k, s, as⟩ := e
  cases k with
  | var => exact List.head?_eq_getElem?.symm.trans h
  | app =>
    cases as with
    | nil => exact absurd h nofun
    | cons a as =>
      by_cases ha : a.isSort = true
      · exact (congrArg some (Option.some.inj ((sortOf?_app ha as).symm.trans h)))
      · unfold sortOf? splitSort at h
        simp only [ha] at h
        exact absurd h nofun
  | sort => exact absurd h nofun

/-- At a position of a pattern stands an instance of the subterm there. -/
theorem Agrees.subterm {p e t : Expr} (hp : p.WellFormed) (h : Agrees σ p e) {q : Position}
    (hq : p.subterm? q = some t) : ∃ u, e.subterm? q = some u ∧ Agrees σ t u := by
  induction q generalizing p e with
  | nil =>
    cases hq
    exact ⟨e, rfl, h⟩
  | cons i q ih =>
    obtain ⟨k, s, as⟩ := p
    obtain ⟨a, ha, hq⟩ := subterm?_cons_iff.mp hq
    have hwf := (wellFormed_node_iff.mp hp).2 a (List.mem_of_getElem? ha)
    by_cases hk : k = .var
    · subst hk
      obtain ⟨sort, rfl, -, -⟩ := hp.var_args
      obtain ⟨-, T, hT, hsort⟩ := h
      cases i with
      | zero =>
        cases ha
        obtain ⟨u, hu, hagrees⟩ := ih hwf hsort hq
        exact ⟨u, subterm?_cons_iff.mpr ⟨T, args_of_sortOf? hT, hu⟩, hagrees⟩
      | succ i => exact absurd ha nofun
    · obtain ⟨k', s', bs⟩ := e
      obtain ⟨rfl, rfl, hall⟩ := (agrees_node_iff hk).mp h
      obtain ⟨b, hb, hab⟩ := exists_getElem?_of_forall₂ hall ha
      obtain ⟨u, hu, hagrees⟩ := ih hwf hab hq
      exact ⟨u, subterm?_cons_iff.mpr ⟨b, hb, hu⟩, hagrees⟩

/-! ## Assignments that respect sorts -/

/-- An assigned expression carries the sort of its variable, filled in. -/
def Respects (σ : Assignment) (rename : String → String) (e : Expr) : Prop :=
  ∀ name S x, IsSubterm (.node .var name [S]) e → σ name = some x →
    x.sortOf? = some (S.fill σ rename)

theorem Respects.subterm {e t : Expr} (h : Respects σ rename e) (ht : t.IsSubterm e) :
    Respects σ rename t :=
  fun name S x hsub => h name S x (hsub.trans ht)

/-- Where sorts are respected, terms are filled in for terms. -/
theorem Respects.isSort_fill {e : Expr} (h : Respects σ rename e) (he : e.WellFormed) :
    (e.fill σ rename).isSort = e.isSort := by
  refine Expr.isSort_fill fun name hname x hx => ?_
  obtain ⟨as, hsub⟩ := mem_varNames_iff.mp hname
  obtain ⟨S, rfl, -, -⟩ := (he.subterm hsub).var_args
  exact isSort_of_sortOf? (h name S x hsub hx)

/-- Filling in commutes with reading off the sort. -/
theorem Respects.sortOf?_fill {e : Expr} (h : Respects σ rename e) (he : e.WellFormed) :
    (e.fill σ rename).sortOf? = e.sortOf?.map (fill σ rename) := by
  obtain ⟨k, s, as⟩ := e
  cases k with
  | var =>
    obtain ⟨S, rfl, -, -⟩ := he.var_args
    cases hs : σ s with
    | some x =>
      rw [fill_of_assigned hs]
      exact h s S x (.refl _) hs
    | none =>
      rw [fill_of_free hs]
      rfl
  | app =>
    rw [fill_node (by decide)]
    cases as with
    | nil => rfl
    | cons a as =>
      have ha := isSubterm_arg (k := .app) (s := s) (List.mem_cons_self (a := a) (l := as))
      have hisSort := (h.subterm ha).isSort_fill (he.subterm ha)
      simp only [List.map_cons, sortOf?, splitSort, hisSort]
      split <;> rfl
  | sort =>
    rw [fill_node (by decide)]
    rfl

/-- Where all variables are assigned expressions of their sorts, what is filled in is an
instance. -/
theorem Respects.agrees {e : Expr} (h : Respects σ rename e) (he : e.WellFormed)
    (hσ : ∀ name ∈ e.varNames, (σ name).isSome) : Agrees σ e (e.fill σ rename) := by
  induction e with
  | node k s as ih =>
    have hargs : ∀ a ∈ as, Agrees σ a (a.fill σ rename) := fun a ha =>
      ih a ha (h.subterm (isSubterm_arg ha)) ((wellFormed_node_iff.mp he).2 a ha)
        fun name hname => hσ name (varNames_subset (isSubterm_arg ha) hname)
    by_cases hk : k = .var
    · subst hk
      obtain ⟨S, rfl, -, -⟩ := he.var_args
      obtain ⟨x, hx⟩ := Option.isSome_iff_exists.mp (hσ s (mem_varNames_iff.mpr ⟨_, .refl _⟩))
      rw [fill_of_assigned hx]
      exact agrees_var_iff.mpr
        ⟨hx, S.fill σ rename, h s S x (.refl _) hx, hargs S List.mem_cons_self⟩
    · rw [fill_node hk]
      refine (agrees_node_iff hk).mpr ⟨rfl, rfl, ?_⟩
      rw [List.forall₂_map_right_iff]
      exact List.forall₂_same.mpr hargs

theorem Agrees.respects {p e : Expr} (hp : p.WellFormed) (h : Agrees σ p e) :
    Respects σ rename p := by
  rintro name S x ⟨q, hq⟩ hx
  obtain ⟨u, -, hu⟩ := h.subterm hp hq
  obtain ⟨hs, T, hT, hST⟩ := agrees_var_iff.mp hu
  cases hx.symm.trans hs
  rw [hT, hST.fill_eq]

/-- Where each variable has one sort, an assignment respects the sorts of an expression that has its
assigned variables in common with expressions whose sorts it respects. -/
theorem respects_of_singleSorted {es : List Expr} (hs : SingleSorted es) {e : Expr} (he : e ∈ es)
    (hσ : ∀ name ∈ e.varNames, ∀ x, σ name = some x →
      ∃ p ∈ es, name ∈ p.varNames ∧ Respects σ rename p) : Respects σ rename e := by
  intro name S x hsub hx
  obtain ⟨p, hp, hname, hrespects⟩ := hσ name (mem_varNames_iff.mpr ⟨_, hsub⟩) x hx
  obtain ⟨as, hsub'⟩ := mem_varNames_iff.mp hname
  have has : as = [S] := hs name as [S] ⟨p, hp, hsub'⟩ ⟨e, he, hsub⟩
  subst has
  exact hrespects name S x hsub' hx

/-- **An instance is what is filled in, for an assignment that respects sorts and has all variables
of the pattern.** -/
theorem agrees_iff (rename : String → String) {p e : Expr} (hp : p.WellFormed) : Agrees σ p e ↔
    p.fill σ rename = e ∧ Respects σ rename p ∧ ∀ name ∈ p.varNames, (σ name).isSome := by
  constructor
  · refine fun h => ⟨h.fill_eq, h.respects hp, fun name hname => ?_⟩
    obtain ⟨rest, hsub⟩ := mem_varNames_iff.mp hname
    obtain ⟨x, hx, -⟩ := h.binding hp hsub
    rw [hx]
    rfl
  · rintro ⟨rfl, hrespects, hσ⟩
    exact hrespects.agrees hp hσ

/-- **An instance stays one when expressions are filled in for its variables.** -/
theorem Agrees.fill {q a : Expr} (hq : q.WellFormed) (ha : a.WellFormed) (h : Agrees τ q a)
    (hrespects : Respects σ rename a) :
    Agrees (fun name => (τ name).map (fill σ rename)) q (a.fill σ rename) := by
  induction q generalizing a with
  | node k s as ih =>
    by_cases hk : k = .var
    · subst hk
      obtain ⟨S, rfl, -, hS⟩ := hq.var_args
      obtain ⟨hs, T, hT, hST⟩ := agrees_var_iff.mp h
      refine agrees_var_iff.mpr ⟨by rw [hs]; rfl, T.fill σ rename, ?_, ?_⟩
      · rw [hrespects.sortOf?_fill ha, hT]
        rfl
      · have hsub := isSubterm_sortOf? hT
        exact ih S List.mem_cons_self hS (ha.subterm hsub) hST (hrespects.subterm hsub)
    · obtain ⟨k', s', bs⟩ := a
      obtain ⟨rfl, rfl, hall⟩ := (agrees_node_iff hk).mp h
      rw [fill_node hk]
      refine (agrees_node_iff hk).mpr ⟨rfl, rfl, List.forall₂_map_right_iff.mpr ?_⟩
      refine forall₂_imp_mem hall fun c hc b hb hcb => ?_
      have hsub := isSubterm_arg (k := k) (s := s) hb
      exact ih c hc ((wellFormed_node_iff.mp hq).2 c hc) (ha.subterm hsub) hcb
        (hrespects.subterm hsub)

end SortedRewriting.Expr
