import SortedRewriting.Proofs.Expr.Matchers
import SortedRewriting.Proofs.Theory.Settled

/-!
# Substitution keeps expressions well sorted

* `Theory.WellSorted.produced`, `Theory.sortOf?_produced`: what a well-sorted expression is rewritten
  to at its root is well sorted, and of the same sort if the sides of the rule are.
* **`Theory.Made.elaborateExpr_stable`**: what elaboration leaves as it is stays so in its subterms,
  under a substitution that respects sorts, and when it is rewritten at its root.
-/

namespace SortedRewriting

namespace Theory

variable {ops : Operators} {p q u : Expr} (rename : String → String)

/-! ## The other side of a rule -/

/-- A match respects the sorts of every pattern that uses each variable with the same sort. -/
theorem respects_match (hp : p.WellFormed) (hs : SingleSorted [p, q])
    (hm : (p.matchWith u).isFailed = false) : Expr.Respects (p.matchWith u).get? rename q := by
  obtain ⟨hagrees, honly⟩ := Expr.matchWith_sound p u hm
  refine Expr.respects_of_singleSorted hs (by simp) fun name _ x hx => ?_
  exact ⟨p, by simp, (honly name x hx).1, hagrees.respects hp⟩

/-- A variable without a binding is none of the pattern. -/
theorem notMem_varNames_of_get? (hp : p.WellFormed) (hm : (p.matchWith u).isFailed = false)
    {name : String} (h : (p.matchWith u).get? name = none) : name ∉ p.varNames := by
  intro hmem
  have hsome := ((Expr.matcher_matchWith hp hm).names name).mpr hmem
  rw [h] at hsome
  cases hsome

/-- **What a well-sorted term is rewritten to is well sorted.** -/
theorem WellSorted.produced (hops : WellDeclared ops) (hp : WellSorted ops p)
    (hq : WellSorted ops q) (hs : SingleSorted [p, q]) (hu : WellSorted ops u)
    (hm : (p.matchWith u).isFailed = false)
    (hrename : ∀ name ∈ q.varNames, name ∉ p.varNames → rename name ≠ "") :
    WellSorted ops (q.fill (p.matchWith u).get? rename) := by
  refine hq.fill hops (respects_match rename hp.wellFormed hs hm) (fun name _ x hx => ?_)
    fun name hname hget => ?_
  · exact hu.subterm (Expr.matchWith_binds hp.wellFormed hm hx).1
  · exact hrename name hname (notMem_varNames_of_get? hp.wellFormed hm hget)

/-- Sorts are told from terms by carrying no sort. -/
theorem WellSorted.sortOf?_eq_none_iff (hops : WellDeclared ops) (hp : WellSorted ops p) :
    p.sortOf? = none ↔ p.isSort = true := by
  obtain ⟨k, s, as⟩ := p
  cases k with
  | var =>
    obtain ⟨S, rfl, -, -⟩ := hp.wellFormed.var_args
    exact ⟨nofun, nofun⟩
  | app =>
    obtain ⟨-, -, checked⟩ := wellSorted_node_iff.mp hp
    obtain ⟨decl, hdecl, σ, hall⟩ := checked rfl
    obtain ⟨sort, operands, hsort, -, rfl⟩ := List.forall₂_cons_left_iff.mp hall
    rw [Expr.sortOf?_app (hsort.isSort_eq.trans (hops s decl hdecl).2.2)]
    exact ⟨nofun, nofun⟩
  | sort => exact ⟨fun _ => rfl, fun _ => rfl⟩

/-- **What a term is rewritten to has its sort.** -/
theorem sortOf?_produced (hops : WellDeclared ops) (hp : WellSorted ops p) (hq : WellSorted ops q)
    (hs : SingleSorted [p, q]) (hsort : p.sortOf? = q.sortOf?)
    (hm : (p.matchWith u).isFailed = false) :
    (q.fill (p.matchWith u).get? rename).isSort = u.isSort ∧
      (q.fill (p.matchWith u).get? rename).sortOf? = u.sortOf? := by
  have hagrees := (Expr.matchWith_sound p u hm).1
  have hrespects := respects_match rename hp.wellFormed hs hm
  constructor
  · rw [hrespects.isSort_fill hq.wellFormed, hagrees.isSort_eq, Bool.eq_iff_iff,
      ← hq.sortOf?_eq_none_iff hops, ← hp.sortOf?_eq_none_iff hops, hsort]
  · calc (q.fill (p.matchWith u).get? rename).sortOf?
        = q.sortOf?.map (Expr.fill (p.matchWith u).get? rename) :=
          hrespects.sortOf?_fill hq.wellFormed
      _ = p.sortOf?.map (Expr.fill (p.matchWith u).get? rename) := by rw [hsort]
      _ = (p.fill (p.matchWith u).get? rename).sortOf? :=
          ((hagrees.respects hp.wellFormed).sortOf?_fill hp.wellFormed).symm
      _ = u.sortOf? := by rw [hagrees.fill_eq]

/-! ## Elaborated expressions -/

variable {t T : Theory}

/-- **What elaboration leaves as it is stays so**: in its subterms, also those of inferred sorts;
when a dictionary that respects sorts puts in what elaboration leaves as it is; and when a rule with
sides of one sort is applied at the root, which keeps the sort. -/
theorem Made.elaborateExpr_stable (ht : t.Made) (helaborate : t.elaborate = .ok T)
    (hclosed : T.Closed) :
    (∀ e u, T.elaborateExpr e = .ok e → u.IsSubterm e → T.elaborateExpr u = .ok u) ∧
    (∀ e d, T.elaborateExpr e = .ok e → d.isFailed = false →
      (∀ name x, d.get? name = some x → T.elaborateExpr x = .ok x) → d.Respects e →
        T.elaborateExpr (e.subst d) = .ok (e.subst d)) ∧
    ∀ r ∈ T.rules, ∀ dir, SingleSorted [r.matched dir, r.produced dir] →
      (r.matched dir).sortOf? = (r.produced dir).sortOf? →
      ∀ e, T.elaborateExpr e = .ok e → ((r.matched dir).matchWith e).isFailed = false →
        T.elaborateExpr ((r.produced dir).subst ((r.matched dir).matchWith e)) =
            .ok ((r.produced dir).subst ((r.matched dir).matchWith e)) ∧
          ((r.produced dir).subst ((r.matched dir).matchWith e)).sortOf? = e.sortOf? := by
  obtain ⟨hsettled, hrules⟩ :=
    (ht.elaborated helaborate).settled (elaborated_of_elaborate helaborate) hclosed
  have hops := hsettled.wellDeclared
  simp only [hsettled.elaborateExpr_eq_self_iff, Expr.subst_eq_fill]
  -- variables that are left over keep their names
  have hnamed : ∀ e : Expr, WellSorted T.operators e → ∀ name ∈ e.varNames, id name ≠ "" :=
    fun e he name hname => he.wellFormed.ne_failureName hname
  refine ⟨fun e u he hu => he.subterm hu, fun e d he _ hd hrespects => ?_,
    fun r hr dir hs hsort e he hm => ?_⟩
  · exact he.fill hops (Bindings.respects_iff.mp hrespects) (fun name _ => hd name)
      fun name hname _ => hnamed e he name hname
  · obtain ⟨hmatched, hproduced⟩ := Rule.both (hrules r hr) dir
    refine ⟨hmatched.produced id hops hproduced hs he hm fun name hname _ => ?_, ?_⟩
    · exact hnamed _ hproduced name hname
    · exact (sortOf?_produced id hops hmatched hproduced hs hsort hm).2

end Theory

/-! ## A theory of arrows -/

namespace Arrows

/-- An image is its object. -/
def fixed : Rule := ⟨"fixed", "", image (objectVar "x"), objectVar "x"⟩

/-- Objects, arrows, images of objects and identities, whose sort depends on the object. -/
def theory : Except DeclarationError Theory :=
  Theory.declare "arrows"
    [("Ob", ⟨"Ob", [], ""⟩), ("Hom", ⟨"Hom", [objectVar "x", objectVar "y"], ""⟩)]
    [("F", ⟨"F", object, [objectVar "x"], ""⟩),
      ("id", ⟨"id", arrows (objectVar "x") (objectVar "x"), [objectVar "x"], ""⟩)]
    [fixed]

/-- A theory that is made by elaborating this one. -/
theorem exists_elaborated {P : Theory → Prop} [DecidablePred P]
    (h : theory.toOption.any (fun t => t.patterns.all (fun e => decide e.WellFormed) &&
      t.elaborate.toOption.any (P ·)) = true) :
    ∃ t T : Theory, t.Made ∧ t.elaborate = .ok T ∧ P T := by
  obtain ⟨t, ht, h⟩ := Theory.exists_made _ _ _ _ h
  obtain ⟨T, hT, hP⟩ := exists_ok_of_any h
  exact ⟨t, T, ht, hT, of_decide_eq_true hP⟩

end Arrows

open Arrows in
/-- An identity over a variable stays as it is when an image is put in, and so does its inferred
sort. The rule for images takes the image to its object, which has the same sort. -/
theorem Theory.Made.elaborateExpr_stable_identity : ∃ t T : Theory,
    t.Made ∧ t.elaborate = .ok T ∧ T.Closed ∧
    let x := objectVar "x"
    let y := image (objectVar "y")
    T.elaborateExpr (arrows x x) = .ok (arrows x x) ∧
    T.elaborateExpr (identity (arrows y y) y) = .ok (identity (arrows y y) y) ∧
    T.elaborateExpr (objectVar "y") = .ok (objectVar "y") := by
  obtain ⟨t, T, ht, hT, hclosed, hrule, hidentity, himage⟩ := exists_elaborated (P := fun T =>
      T.Closed ∧ fixed ∈ T.rules ∧
      T.elaborateExpr (identity (arrows (objectVar "x") (objectVar "x")) (objectVar "x")) =
        .ok (identity (arrows (objectVar "x") (objectVar "x")) (objectVar "x")) ∧
      T.elaborateExpr (image (objectVar "y")) = .ok (image (objectVar "y"))) (by decide +kernel)
  obtain ⟨hsubterm, hsubst, hstep⟩ := Theory.Made.elaborateExpr_stable ht hT hclosed
  have hwf : (objectVar "x").WellFormed := by decide +kernel
  -- the variable stands for the image
  have hm : ((objectVar "x").matchWith (image (objectVar "y"))).isFailed = false := by
    decide +kernel
  refine ⟨t, T, ht, hT, hclosed,
    hsubterm _ _ hidentity (Expr.isSubterm_arg List.mem_cons_self), ?_, ?_⟩
  · refine hsubst _ ((objectVar "x").matchWith (image (objectVar "y"))) hidentity hm ?_ ?_
    · exact fun name e he => hsubterm _ e himage (Expr.matchWith_binds hwf hm he).1
    · exact Bindings.respects_iff.mpr (Theory.respects_match id hwf (by decide +kernel) hm)
  · exact (hstep fixed hrule .forward (by decide +kernel) (by decide +kernel) _ himage
      (by decide +kernel)).1

end SortedRewriting
