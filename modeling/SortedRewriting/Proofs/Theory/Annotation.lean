import SortedRewriting.Proofs.Theory.Settled

/-!
# Elaborated terms carry their sorts

Whether declarations are closed or not, every application that elaboration leaves behind is of a
declared operator and has a sort for its first child, also inside the sorts that are inferred.

* `Theory.matchArgs_subterms`: what arguments bind are subterms of them.
* `Theory.infer_annotated`: what is inferred is a sort with annotated applications.
* **`Theory.Made.annotated`**, **`Theory.Made.elaborateExpr_annotated`**: the result sorts and the
  rules of an elaborated theory, and the terms that it elaborates, are annotated.
-/

namespace SortedRewriting.Theory

variable {t work final : Theory} {e e' sort : Expr} {k : Kind} {s f : String} {as : List Expr}
  {decl : OpDecl} {done order : List String}

/-! ## Annotated expressions -/

/-- Every application is of a declared operator and has a sort for its first child. -/
def Annotated (t : Theory) (e : Expr) : Prop :=
  ∀ s as, Expr.IsSubterm (.node .app s as) e →
    s ∈ t.ops ∧ ∃ S operands, as = S :: operands ∧ S.isSort = true

theorem Annotated.subterm {u : Expr} (h : t.Annotated e) (hu : u.IsSubterm e) : t.Annotated u :=
  fun s as hsub => h s as (hsub.trans hu)

theorem annotated_node_iff : t.Annotated (.node k s as) ↔
    (k = .app → s ∈ t.ops ∧ ∃ S operands, as = S :: operands ∧ S.isSort = true) ∧
      ∀ a ∈ as, t.Annotated a := by
  constructor
  · intro h
    exact ⟨fun hk => h s as (hk ▸ .refl _), fun a ha => h.subterm (Expr.isSubterm_arg ha)⟩
  · rintro ⟨hnode, hargs⟩ s' as' hsub
    rcases Expr.isSubterm_node_iff.mp hsub with heq | ⟨a, ha, hsub⟩
    · cases heq
      exact hnode rfl
    · exact hargs a ha s' as' hsub

/-- Annotated terms in the place of variables keep an expression annotated. -/
theorem Annotated.fill {σ : Bindings.Assignment} {rename : String → String} (h : t.Annotated e)
    (hσ : ∀ name x, σ name = some x → t.Annotated x ∧ x.isSort = false) :
    t.Annotated (e.fill σ rename) := by
  induction e with
  | node k s as ih =>
    obtain ⟨hnode, hargs⟩ := annotated_node_iff.mp h
    have hfilled : ∀ a ∈ as.map (Expr.fill σ rename), t.Annotated a := by
      intro a' ha'
      obtain ⟨a, ha, rfl⟩ := List.mem_map.mp ha'
      exact ih a ha (hargs a ha)
    by_cases hk : k = .var
    · subst hk
      cases hs : σ s with
      | some x =>
        rw [Expr.fill_of_assigned hs]
        exact (hσ s x hs).1
      | none =>
        rw [Expr.fill_of_free hs]
        exact annotated_node_iff.mpr ⟨nofun, hfilled⟩
    · rw [Expr.fill_node hk]
      refine annotated_node_iff.mpr ⟨fun hk => ?_, hfilled⟩
      obtain ⟨hs, S, operands, rfl, hS⟩ := hnode hk
      have hisSort : (S.fill σ rename).isSort = S.isSort :=
        Expr.isSort_fill fun name _ x hx => (hσ name x hx).2
      exact ⟨hs, _, _, List.map_cons, hisSort.trans hS⟩

/-! ## Inference -/

/-- What arguments bind are subterms of them, and no sorts. -/
theorem matchArgs_subterms {sym : String} {ps as : List Expr} (hps : ∀ p ∈ ps, p.WellFormed)
    {index : Nat} {d d' : Bindings} (h : matchArgs sym index d ps as = .ok d') {n : String}
    {x : Expr} (hx : d'.get? n = some x) :
    d.get? n = some x ∨ (∃ a ∈ as, x.IsSubterm a) ∧ x.isSort = false := by
  induction ps generalizing as index d with
  | nil =>
    cases h
    exact .inl hx
  | cons p ps ih =>
    cases as with
    | nil =>
      cases h
      exact .inl hx
    | cons a as =>
      obtain ⟨hp, hps⟩ := List.forall_mem_cons.mp hps
      unfold matchArgs at h
      simp only at h
      split at h
      · cases h
      · rename_i hm
        split at h
        · cases h
        · rename_i hmerge
          obtain ⟨-, -, hget⟩ := Bindings.merge_sound (eq_false_of_ne_true hmerge)
          rcases ih hps h with hx | ⟨⟨b, hb, hsub⟩, hsort⟩
          · refine ((hget n x).mp hx).imp_right fun hx => ?_
            obtain ⟨hsub, hsort⟩ := Expr.matchWith_binds hp (eq_false_of_ne_true hm) hx
            exact ⟨⟨a, List.mem_cons_self, hsub⟩, hsort⟩
          · exact .inr ⟨⟨b, List.mem_cons_of_mem a hb, hsub⟩, hsort⟩

/-- **What is inferred for annotated arguments is an annotated sort.** -/
theorem infer_annotated (hwf : work.OpsWellFormed) (hdecl : work.ops[s]? = some decl)
    (hissort : decl.sort.isSort = true) (hsort : t.Annotated decl.sort)
    (has : ∀ a ∈ as, t.Annotated a) (h : work.infer s as = .ok sort) :
    sort.isSort = true ∧ t.Annotated sort := by
  obtain ⟨-, d, hd, rfl⟩ := (infer_eq_ok_iff_matchArgs hdecl).mp h
  have hbinds : ∀ n x, d.get? n = some x → t.Annotated x ∧ x.isSort = false := by
    intro n x hx
    rcases matchArgs_subterms (hwf s decl hdecl).2 hd hx with hx | ⟨⟨a, ha, hsub⟩, hxsort⟩
    · simp at hx
    · exact ⟨(has a ha).subterm hsub, hxsort⟩
  rw [Expr.subst_eq_fill]
  exact ⟨(Expr.isSort_fill fun n _ x hx => (hbinds n x hx).2).trans hissort, hsort.fill hbinds⟩

/-! ## Elaboration -/

/-- The operators that occur in an expression result in annotated sorts. -/
def LooksUp (t work : Theory) (e : Expr) : Prop :=
  ∀ u : Expr, u.IsSubterm e → ∀ decl, work.ops[u.sym]? = some decl → t.Annotated decl.sort

/-- **An elaborated expression is annotated**, if the result sorts are that are looked up. -/
theorem annotated_of_elaborateExpr (hsame : SameSymbols t work) (hwf : work.OpsWellFormed)
    (hlook : LooksUp t work e) (h : work.elaborateExpr e = .ok e') : t.Annotated e' := by
  induction e generalizing e' with
  | node k s as ih =>
    have hargs : ∀ as₀ bs, (∀ a ∈ as₀, a ∈ as) →
        List.Forall₂ (fun a b => work.elaborateExpr a = .ok b) as₀ bs →
          ∀ b ∈ bs, t.Annotated b := by
      intro as₀ bs hsub hall b hb
      obtain ⟨a, ha, hab⟩ := exists_of_mem_left hall.flip hb
      exact ih a (hsub a ha) (fun u hu => hlook u (hu.trans (Expr.isSubterm_arg (hsub a ha)))) hab
    by_cases hk : k = .app
    · subst hk
      obtain ⟨sort, operands, hoperands, hsort, -, rfl⟩ := elaborateExpr_app_eq_ok_iff.mp h
      obtain ⟨decl, hdecl⟩ := exists_decl_of_infer hsort
      have hannotated := hargs _ operands (fun _ => Expr.mem_of_mem_splitSort) hoperands
      obtain ⟨hissort, hsort⟩ := infer_annotated hwf hdecl (hsame.consistent s decl hdecl).2
        (hlook _ (.refl _) decl hdecl) hannotated hsort
      refine annotated_node_iff.mpr ⟨fun _ => ⟨?_, sort, operands, rfl, hissort⟩,
        List.forall_mem_cons.mpr ⟨hsort, hannotated⟩⟩
      exact (hsame.ops s).mp (mem_ops_iff.mpr ⟨decl, hdecl⟩)
    · obtain ⟨bs, hbs, -, rfl⟩ := (elaborateExpr_eq_ok_iff hk).mp h
      exact annotated_node_iff.mpr ⟨fun hk' => absurd hk' hk, hargs as bs (fun _ ha => ha) hbs⟩

/-- The operators that are done result in annotated sorts. -/
def DoneAnnotated (t work : Theory) (done : List String) : Prop :=
  ∀ sym ∈ done, ∀ decl, work.ops[sym]? = some decl → t.Annotated decl.sort

/-- One operator more is done. -/
theorem DoneAnnotated.next (h : DoneAnnotated t work done) (hsame : SameSymbols t work)
    (hwf : work.OpsWellFormed) (hneeded : ∀ g, t.DependsOn f g → g ∈ done)
    (hnew : f ∉ done) (hnext : elaborateNext t work f = .ok final) :
    DoneAnnotated t final (f :: done) := by
  intro sym hsym decl' hdecl'
  rcases List.mem_cons.mp hsym with rfl | hsym
  · cases hf : t.ops[sym]? with
    | none =>
      -- the operator would have been declared all along
      rw [elaborateNext_of_none hf hnext] at hdecl'
      obtain ⟨decl, hdecl⟩ := mem_ops_iff.mp ((hsame.ops sym).mp (mem_ops_iff.mpr ⟨decl', hdecl'⟩))
      rw [hf] at hdecl
      exact absurd hdecl nofun
    | some decl =>
      obtain ⟨decl'', hop, rfl⟩ := elaborateNext_eq_ok hf hnext
      rw [Std.ExtTreeMap.getElem?_insert_self] at hdecl'
      cases hdecl'
      obtain ⟨sort, args, hsort, -, rfl⟩ := elaborateOp_eq_ok_iff.mp hop
      refine annotated_of_elaborateExpr hsame hwf (fun u hu decl' hdecl' => ?_) hsort
      have hmem := (hsame.ops u.sym).mp (mem_ops_iff.mpr ⟨decl', hdecl'⟩)
      have hdepends : t.DependsOn sym u.sym := ⟨decl, hf,
        mem_dependencies_iff.mpr ⟨⟨decl.sort, List.mem_cons_self, u, hu, rfl⟩, hmem⟩⟩
      exact h u.sym (hneeded u.sym hdepends) decl' hdecl'
  · have hne : sym ≠ f := fun heq => hnew (heq ▸ hsym)
    rw [elaborateNext_getElem? hnext hne] at hdecl'
    exact h sym hsym decl' hdecl'

/-- Operators that are elaborated in order result in annotated sorts. -/
theorem doneAnnotated_of_ordered (ht : t.Consistent) (hordered : Ordered t.DependsOn done order)
    (hsame : SameSymbols t work) (hwf : work.OpsWellFormed) (h : DoneAnnotated t work done)
    (hfold : order.foldlM (elaborateNext t) work = .ok final) :
    DoneAnnotated t final (order.reverse ++ done) := by
  induction hordered generalizing work with
  | nil =>
    cases hfold
    exact h
  | @cons done f fs new needed rest ih =>
    rw [List.foldlM_cons] at hfold
    obtain ⟨next, hnext, hfold⟩ := bind_eq_ok_iff.mp hfold
    rw [List.reverse_cons, List.append_assoc]
    exact ih (hsame.next ht hnext) (elaborateNext_ops hwf hnext)
      (h.next hsame hwf needed new hnext) hfold

/-! ## Elaborated theories -/

/-- The result sorts of all operators are annotated, and so are the sides of all rules. -/
structure AnnotatedPatterns (t : Theory) : Prop where
  sorts : ∀ (s : String) (decl : OpDecl), t.ops[s]? = some decl → t.Annotated decl.sort
  rules : ∀ r ∈ t.rules, t.Annotated r.left ∧ t.Annotated r.right

/-- The elaboration of a raw theory. -/
theorem annotated_of_elaborate {t' : Theory} (ht : t.Made) (hraw : t.elaborated = false)
    (h : t.elaborate = .ok t') : t'.AnnotatedPatterns := by
  obtain ⟨order, work, sorts, rules, horder, hwork, -, hrules, rfl⟩ := elaborate_eq_ok hraw h
  obtain ⟨hordered, hall⟩ := ordered_operatorOrder horder
  have hstart : SameSymbols t t := ⟨rfl, fun _ => Iff.rfl, ht.consistent⟩
  have hsame : SameSymbols t work := hstart.fold ht.consistent hwork
  have hwf : work.OpsWellFormed := foldlM_elaborateNext_ops ht.sound.ops hwork
  have hdone := doneAnnotated_of_ordered ht.consistent hordered hstart ht.sound.ops
    (fun _ hsym => absurd hsym List.not_mem_nil) hwork
  have hsorts : ∀ (s : String) (decl : OpDecl), work.ops[s]? = some decl → t.Annotated decl.sort := by
    intro s decl hdecl
    have hmem := hall s ((hsame.ops s).mp (mem_ops_iff.mpr ⟨decl, hdecl⟩))
    exact hdone s (List.mem_append_left _ (List.mem_reverse.mpr hmem)) decl hdecl
  -- the same operators are declared
  have hback : ∀ {e : Expr}, t.Annotated e → Annotated
      { work with sorts := .ofList sorts, rules, elaborated := true } e :=
    fun he s as hsub => (he s as hsub).imp_left (hsame.ops s).mpr
  refine ⟨fun s decl hdecl => hback (hsorts s decl hdecl), fun r hr => ?_⟩
  obtain ⟨left, right, hleft, hright⟩ := exists_sides_of_mem hrules hr
  exact ⟨hback (annotated_of_elaborateExpr hsame hwf (fun _ _ decl => hsorts _ decl) hleft),
    hback (annotated_of_elaborateExpr hsame hwf (fun _ _ decl => hsorts _ decl) hright)⟩

/-- **The patterns of an elaborated theory are annotated.** -/
theorem Made.annotated (h : t.Made) (helaborate : t.elaborated = true) : t.AnnotatedPatterns := by
  obtain ⟨raw, made, hraw, elaborate⟩ := h.exists_raw helaborate
  exact annotated_of_elaborate made hraw elaborate

/-- **What an elaborated theory elaborates is annotated.** -/
theorem Made.elaborateExpr_annotated (h : t.Made) (helaborate : t.elaborated = true)
    (he : t.elaborateExpr e = .ok e') : t.Annotated e' :=
  annotated_of_elaborateExpr ⟨rfl, fun _ => Iff.rfl, h.consistent⟩ h.sound.ops
    (fun u _ decl hdecl => (h.annotated helaborate).sorts u.sym decl hdecl) he

end SortedRewriting.Theory
