import SortedRewriting.Proofs.Theory.Inference

/-!
# Well-sorted expressions

`Theory.WellSorted` says that every application, together with the sort that it carries, is an
instance of the declaration of its operator, everywhere in the expression, also inside sorts.

* `Theory.WellSorted.subterm`: so it is of every subterm.
* **`Theory.WellSorted.fill`**, `Theory.WellSorted.instance`: an expression stays well sorted when
  well-sorted expressions are filled in for variables of their sorts.
* `Theory.SettledIn.elaborateExpr`: elaboration makes well-sorted expressions, as long as it looks
  up operators only whose result sorts are well sorted.
* **`Theory.Settled.elaborateExpr_eq_self_iff`**: where all are, elaboration leaves exactly the
  well-sorted expressions as they are.
-/

namespace SortedRewriting.Theory

open Bindings (Assignment)

/-- Declarations of operators by symbol. -/
abbrev Operators := String → Option OpDecl

/-- The children of an application are an instance of the result sort and the arguments that its
operator is declared with. -/
def Checked (ops : Operators) (sym : String) (args : List Expr) : Prop :=
  ∃ decl, ops sym = some decl ∧ ∃ σ, List.Forall₂ (Expr.Agrees σ) (decl.sort :: decl.args) args

/-- Every node obeys the shape rules, and every application is checked. -/
inductive WellSorted (ops : Operators) : Expr → Prop
  | node {k : Kind} {s : String} {as : List Expr} (shape : Expr.checkShape k s as = .ok ())
      (children : ∀ a ∈ as, WellSorted ops a) (checked : k = .app → Checked ops s as) :
      WellSorted ops (.node k s as)

variable {ops ops' : Operators} {σ : Assignment} {rename : String → String} {e t p : Expr}
  {k : Kind} {s : String} {as bs : List Expr}

theorem wellSorted_node_iff : WellSorted ops (.node k s as) ↔
    Expr.checkShape k s as = .ok () ∧ (∀ a ∈ as, WellSorted ops a) ∧
      (k = .app → Checked ops s as) :=
  ⟨fun h => by cases h with | node shape children checked => exact ⟨shape, children, checked⟩,
    fun h => .node h.1 h.2.1 h.2.2⟩

theorem WellSorted.wellFormed (h : WellSorted ops e) : e.WellFormed := by
  induction h with
  | node shape _ _ ih => exact .node shape ih

theorem WellSorted.subterm (h : WellSorted ops e) (ht : t.IsSubterm e) : WellSorted ops t := by
  obtain ⟨q, hq⟩ := ht
  induction q generalizing e with
  | nil =>
    cases hq
    exact h
  | cons i q ih =>
    obtain ⟨k, s, as⟩ := e
    obtain ⟨a, ha, hq⟩ := Expr.subterm?_cons_iff.mp hq
    exact ih ((wellSorted_node_iff.mp h).2.1 a (List.mem_of_getElem? ha)) hq

theorem Checked.mono (hle : ∀ s decl, ops s = some decl → ops' s = some decl)
    (h : Checked ops s as) : Checked ops' s as := by
  obtain ⟨decl, hdecl, hinstance⟩ := h
  exact ⟨decl, hle s decl hdecl, hinstance⟩

theorem WellSorted.mono (hle : ∀ s decl, ops s = some decl → ops' s = some decl)
    (h : WellSorted ops e) : WellSorted ops' e := by
  induction h with
  | node shape _ checked ih => exact .node shape ih fun hk => (checked hk).mono hle

/-! ## Filling in -/

/-- Every operator is declared with well-formed expressions, and its result is a sort. -/
def WellDeclared (ops : Operators) : Prop :=
  ∀ s decl, ops s = some decl → decl.sort.WellFormed ∧ (∀ p ∈ decl.args, p.WellFormed) ∧
    decl.sort.isSort = true

/-- A checked application stays checked when expressions are filled in. -/
theorem Checked.fill (hops : WellDeclared ops) (h : Checked ops s as)
    (has : ∀ a ∈ as, a.WellFormed ∧ Expr.Respects σ rename a) :
    Checked ops s (as.map (Expr.fill σ rename)) := by
  obtain ⟨decl, hdecl, τ, hinstance⟩ := h
  obtain ⟨hsort, hargs, -⟩ := hops s decl hdecl
  have hwf : ∀ q ∈ decl.sort :: decl.args, q.WellFormed := List.forall_mem_cons.mpr ⟨hsort, hargs⟩
  refine ⟨decl, hdecl, fun name => (τ name).map (Expr.fill σ rename), ?_⟩
  rw [List.forall₂_map_right_iff]
  exact forall₂_imp_mem hinstance fun q hq a ha hqa =>
    hqa.fill (hwf q hq) (has a ha).1 (has a ha).2

/-- **An expression stays well sorted when well-sorted expressions are filled in**, each with the
sort of its variable; variables that are left over want a name. -/
theorem WellSorted.fill (hops : WellDeclared ops) (he : WellSorted ops e)
    (hrespects : Expr.Respects σ rename e)
    (hσ : ∀ name ∈ e.varNames, ∀ x, σ name = some x → WellSorted ops x)
    (hrename : ∀ name ∈ e.varNames, σ name = none → rename name ≠ "") :
    WellSorted ops (e.fill σ rename) := by
  induction he with
  | @node k s as shape children checked ih =>
    have hwf : ∀ a ∈ as, a.WellFormed ∧ Expr.Respects σ rename a := fun a ha =>
      ⟨(children a ha).wellFormed, hrespects.subterm (Expr.isSubterm_arg ha)⟩
    have hargs : ∀ a ∈ as, WellSorted ops (a.fill σ rename) := fun a ha =>
      ih a ha (hwf a ha).2
        (fun name hname => hσ name (Expr.varNames_subset (Expr.isSubterm_arg ha) hname))
        (fun name hname => hrename name (Expr.varNames_subset (Expr.isSubterm_arg ha) hname))
    have hisSort : (as.map (Expr.fill σ rename)).map Expr.isSort = as.map Expr.isSort := by
      rw [List.map_map]
      exact List.map_congr_left fun a ha => (hwf a ha).2.isSort_fill (hwf a ha).1
    by_cases hk : k = .var
    · subst hk
      have hname : s ∈ (Expr.node .var s as).varNames := Expr.mem_varNames_iff.mpr ⟨as, .refl _⟩
      cases hs : σ s with
      | some x =>
        rw [Expr.fill_of_assigned hs]
        exact hσ s hname x hs
      | none =>
        rw [Expr.fill_of_free hs]
        refine .node ?_ (List.forall_mem_map.mpr hargs) nofun
        exact Expr.checkShape_rename (hrename s hname hs) ((Expr.checkShape_congr hisSort).trans shape)
    · rw [Expr.fill_node hk]
      refine .node ((Expr.checkShape_congr hisSort).trans shape) (List.forall_mem_map.mpr hargs) ?_
      exact fun hk => (checked hk).fill hops hwf

/-- An instance of a well-sorted pattern is well sorted, if well-sorted expressions stand for its
variables. -/
theorem WellSorted.instance (hops : WellDeclared ops) (hp : WellSorted ops p)
    (h : Expr.Agrees σ p e) (hσ : ∀ name ∈ p.varNames, ∀ x, σ name = some x → WellSorted ops x) :
    WellSorted ops e := by
  obtain ⟨rfl, hrespects, hassigned⟩ :=
    (Expr.agrees_iff id hp.wellFormed).mp h
  refine hp.fill hops hrespects hσ fun name hname hnone => ?_
  have hsome := hassigned name hname
  rw [hnone] at hsome
  cases hsome

/-! ## Elaboration, node by node -/

variable {T : Theory} {e' : Expr}

theorem elaborateAll_eq_mapM : T.elaborateAll as = as.mapM T.elaborateExpr := by
  induction as with
  | nil => rfl
  | cons a as ih =>
    rw [elaborateAll, List.mapM_cons, ih]

theorem elaborateAll_eq_ok_iff : T.elaborateAll as = .ok bs ↔
    List.Forall₂ (fun a b => T.elaborateExpr a = .ok b) as bs := by
  rw [elaborateAll_eq_mapM, mapM_eq_ok_iff]

/-- The operands of an application are its children without the sort. -/
theorem elaborateOperands_eq : T.elaborateOperands as = T.elaborateAll (Expr.splitSort as).2 := by
  cases as with
  | nil => rfl
  | cons a as =>
    rw [elaborateOperands, Expr.splitSort]
    split
    · rfl
    · rfl

theorem exists_decl_of_infer {sort : Expr} (h : T.infer s as = .ok sort) :
    ∃ decl, T.ops[s]? = some decl := by
  unfold infer at h
  split at h
  · exact absurd h nofun
  · exact ⟨_, ‹_›⟩

theorem elaborateExpr_app : T.elaborateExpr (.node .app s as) =
    T.elaborateAll (Expr.splitSort as).2 >>= fun operands => T.infer s operands >>= fun sort =>
      ElaborationError.ofShape (Expr.build .app s (sort :: operands)) := by
  rw [elaborateExpr, elaborateOperands_eq]

theorem elaborateExpr_node (hk : k ≠ .app) : T.elaborateExpr (.node k s as) =
    T.elaborateAll as >>= fun bs => ElaborationError.ofShape (Expr.build k s bs) := by
  cases k with
  | app => exact absurd rfl hk
  | var => rw [elaborateExpr]; exact fun h => hk h
  | sort => rw [elaborateExpr]; exact fun h => hk h

/-- Substitution makes a sort of a sort. -/
theorem isSort_subst {sort : Expr} (h : sort.isSort = true) (d : Bindings) :
    (sort.subst d).isSort = true := by
  obtain ⟨k, s, as⟩ := sort
  have hk : k = .sort := of_decide_eq_true h
  subst hk
  rw [Expr.subst_eq_fill, Expr.fill_node (by decide)]
  rfl

/-- What is inferred is a sort, if the declared result is one. -/
theorem isSort_of_infer {sort : Expr}
    (h : ∀ decl, T.ops[s]? = some decl → decl.sort.isSort = true)
    (hinfer : T.infer s as = .ok sort) : sort.isSort = true := by
  obtain ⟨decl, hdecl⟩ := exists_decl_of_infer hinfer
  obtain ⟨-, d, -, rfl⟩ := (infer_eq_ok_iff_matchArgs hdecl).mp hinfer
  exact isSort_subst (h decl hdecl) d

/-- An application is elaborated to its elaborated operands behind the sort that is inferred. -/
theorem elaborateExpr_app_eq_ok_iff : T.elaborateExpr (.node .app s as) = .ok e' ↔
    ∃ sort operands,
      List.Forall₂ (fun a b => T.elaborateExpr a = .ok b) (Expr.splitSort as).2 operands ∧
      T.infer s operands = .ok sort ∧ Expr.checkShape .app s (sort :: operands) = .ok () ∧
      e' = .node .app s (sort :: operands) := by
  rw [elaborateExpr_app, bind_eq_ok_iff]
  constructor
  · rintro ⟨operands, hoperands, h⟩
    obtain ⟨sort, hsort, h⟩ := bind_eq_ok_iff.mp h
    exact ⟨sort, operands, elaborateAll_eq_ok_iff.mp hoperands, hsort,
      ofShape_build_eq_ok_iff.mp h⟩
  · rintro ⟨sort, operands, hoperands, hsort, h⟩
    exact ⟨operands, elaborateAll_eq_ok_iff.mpr hoperands,
      bind_eq_ok_iff.mpr ⟨sort, hsort, ofShape_build_eq_ok_iff.mpr h⟩⟩

/-- Any other node is elaborated to its elaborated children. -/
theorem elaborateExpr_eq_ok_iff (hk : k ≠ .app) : T.elaborateExpr (.node k s as) = .ok e' ↔
    ∃ bs, List.Forall₂ (fun a b => T.elaborateExpr a = .ok b) as bs ∧
      Expr.checkShape k s bs = .ok () ∧ e' = .node k s bs := by
  rw [elaborateExpr_node hk, bind_eq_ok_iff]
  simp only [elaborateAll_eq_ok_iff, ofShape_build_eq_ok_iff]

/-! ## Elaboration makes well-sorted expressions -/

/-- The operators are found that the theory has for the symbols of an expression. -/
def Covers (ops : Operators) (T : Theory) (e : Expr) : Prop :=
  ∀ u : Expr, u.IsSubterm e → ∀ decl, T.ops[u.sym]? = some decl → ops u.sym = some decl

/-- Operators of a theory whose declarations are closed, and whose result sorts are well sorted
already. -/
structure SettledIn (ops : Operators) (T : Theory) : Prop where
  declared : ∀ s decl, ops s = some decl → T.ops[s]? = some decl
  closed : ∀ s decl, ops s = some decl → decl.Closed
  sorted : ∀ s decl, ops s = some decl → WellSorted ops decl.sort

/-- A sort that is inferred for well-sorted arguments is well sorted. -/
theorem SettledIn.infer_wellSorted (h : SettledIn ops T) (hops : WellDeclared ops)
    {decl : OpDecl} (hdecl : ops s = some decl) {sort : Expr}
    (hall : List.Forall₂ (Expr.Agrees σ) (decl.sort :: decl.args) (sort :: as))
    (has : ∀ a ∈ as, WellSorted ops a) : WellSorted ops sort := by
  obtain ⟨hsort, hargs⟩ := List.forall₂_cons.mp hall
  refine (h.sorted s decl hdecl).instance hops hsort fun name hname x hx => ?_
  obtain ⟨p, hp, hname⟩ := (h.closed s decl hdecl).bound name hname
  obtain ⟨rest, hsub⟩ := Expr.mem_varNames_iff.mp hname
  obtain ⟨a, ha, hpa⟩ := exists_of_mem_left hargs hp
  obtain ⟨y, hy, hya⟩ := hpa.binding ((hops s decl hdecl).2.1 p hp) hsub
  cases hx.symm.trans hy
  exact (has a ha).subterm hya

/-- **Elaboration makes well-sorted expressions.** -/
theorem SettledIn.elaborateExpr (h : SettledIn ops T) (hops : WellDeclared ops)
    (hT : T.OpsWellFormed) (hcovers : Covers ops T e) (he : T.elaborateExpr e = .ok e') :
    WellSorted ops e' := by
  induction e generalizing e' with
  | node k s as ih =>
    have hargs : ∀ as₀ bs, (∀ a ∈ as₀, a ∈ as) →
        List.Forall₂ (fun a b => T.elaborateExpr a = .ok b) as₀ bs →
          ∀ b ∈ bs, WellSorted ops b := by
      intro as₀ bs hsub hall b hb
      obtain ⟨a, ha, hab⟩ := exists_of_mem_left hall.flip hb
      exact ih a (hsub a ha) (fun u hu => hcovers u (hu.trans (Expr.isSubterm_arg (hsub a ha)))) hab
    by_cases hk : k = .app
    · subst hk
      obtain ⟨sort, operands, hoperands, hsort, hshape, rfl⟩ := elaborateExpr_app_eq_ok_iff.mp he
      obtain ⟨decl, hdecl⟩ := exists_decl_of_infer hsort
      have hop : ops s = some decl := hcovers _ (.refl _) decl hdecl
      obtain ⟨σ, hinstance⟩ := (infer_eq_ok_iff hT hdecl (h.closed s decl hop)).mp hsort
      have hsorted := hargs _ operands (fun _ => Expr.mem_of_mem_splitSort) hoperands
      refine .node hshape (List.forall_mem_cons.mpr ⟨?_, hsorted⟩) fun _ =>
        ⟨decl, hop, σ, hinstance⟩
      exact h.infer_wellSorted hops hop hinstance hsorted
    · obtain ⟨bs, hbs, hshape, rfl⟩ := (elaborateExpr_eq_ok_iff hk).mp he
      exact .node hshape (hargs as bs (fun _ ha => ha) hbs) fun hk' => absurd hk' hk

/-! ## What elaboration leaves as it is -/

/-- The operators of a theory. -/
def operators (T : Theory) : Operators := fun s => T.ops[s]?

/-- The operators of a theory are well declared, by closed declarations, with well-sorted
results. -/
structure Settled (T : Theory) : Prop where
  wellDeclared : WellDeclared T.operators
  settledIn : SettledIn T.operators T

theorem Settled.opsWellFormed (h : Settled T) : T.OpsWellFormed := fun s decl hdecl =>
  have hdecl := h.wellDeclared s decl hdecl
  ⟨hdecl.1, hdecl.2.1⟩

/-- An application carries the sort that is inferred for its operands. -/
def Carries (T : Theory) (s : String) (as : List Expr) : Prop :=
  ∃ sort operands, as = sort :: operands ∧ T.infer s operands = .ok sort

/-- A checked application is one that carries the sort of its operands. -/
theorem Settled.checked_iff (h : Settled T) : Checked T.operators s as ↔ T.Carries s as := by
  constructor
  · rintro ⟨decl, hdecl, σ, hall⟩
    obtain ⟨sort, operands, -, -, rfl⟩ := List.forall₂_cons_left_iff.mp hall
    have hclosed := h.settledIn.closed s decl hdecl
    exact ⟨sort, operands, rfl, (infer_eq_ok_iff h.opsWellFormed hdecl hclosed).mpr ⟨σ, hall⟩⟩
  · rintro ⟨sort, operands, rfl, hinfer⟩
    obtain ⟨decl, hdecl⟩ := exists_decl_of_infer hinfer
    have hclosed := h.settledIn.closed s decl hdecl
    exact ⟨decl, hdecl, (infer_eq_ok_iff h.opsWellFormed hdecl hclosed).mp hinfer⟩

theorem Settled.isSort_of_infer (h : Settled T) {sort : Expr} (hinfer : T.infer s as = .ok sort) :
    sort.isSort = true :=
  Theory.isSort_of_infer (fun decl hdecl => (h.wellDeclared s decl hdecl).2.2) hinfer

theorem Settled.elaborateExpr_eq_self (h : Settled T) (he : WellSorted T.operators e) :
    T.elaborateExpr e = .ok e := by
  induction he with
  | @node k s as shape children checked ih =>
    have hself : ∀ as₀, (∀ a ∈ as₀, a ∈ as) →
        List.Forall₂ (fun a b => T.elaborateExpr a = .ok b) as₀ as₀ := fun as₀ hsub =>
      List.forall₂_same.mpr fun a ha => ih a (hsub a ha)
    by_cases hk : k = .app
    · subst hk
      obtain ⟨sort, operands, rfl, hinfer⟩ := h.checked_iff.mp (checked rfl)
      refine elaborateExpr_app_eq_ok_iff.mpr ⟨sort, operands, ?_, hinfer, shape, rfl⟩
      rw [Expr.splitSort_cons (h.isSort_of_infer hinfer)]
      exact hself operands fun a ha => List.mem_cons_of_mem sort ha
    · exact (elaborateExpr_eq_ok_iff hk).mpr ⟨as, hself as fun _ ha => ha, shape, rfl⟩

/-- **Elaboration leaves exactly the well-sorted expressions as they are.** -/
theorem Settled.elaborateExpr_eq_self_iff (h : Settled T) :
    T.elaborateExpr e = .ok e ↔ WellSorted T.operators e := by
  refine ⟨fun he => ?_, h.elaborateExpr_eq_self⟩
  exact h.settledIn.elaborateExpr h.wellDeclared h.opsWellFormed (fun _ _ _ hdecl => hdecl) he

end SortedRewriting.Theory
