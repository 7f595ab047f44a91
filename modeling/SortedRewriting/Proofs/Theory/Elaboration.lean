import SortedRewriting.Proofs.Expr.Matching
import SortedRewriting.Theory.Elaboration

/-!
# Elaboration makes well-formed expressions

`Theory.Made` are the theories that the library makes: those that are declared, of well-formed
expressions, and their elaborations.

* `Expr.WellFormed.subst`: substitution keeps expressions well formed, if it puts in terms only.
* `Theory.elaborateExpr_wellFormed`: so does elaboration.
* `Theory.elaborate_eq_ok`: what the elaboration of a theory does, step after step.
* **`Theory.Made.sound`**: the theories that the library makes are of well-formed expressions.
-/

namespace SortedRewriting

/-! ## Substitution -/

namespace Expr

/-- The shape rules look at the children only for which of them are sorts. -/
theorem checkShape_congr {k : Kind} {s : String} {as bs : List Expr}
    (h : as.map isSort = bs.map isSort) : checkShape k s as = checkShape k s bs := by
  have hlen : as.length = bs.length := by simpa using congrArg List.length h
  unfold checkShape
  split
  · rfl
  · cases k with
    | var =>
      match as, bs, h, hlen with
      | [], [], _, _ => rfl
      | [a], [b], h, _ =>
        have hab : a.isSort = b.isSort := by simpa using h
        simp only [hab]
      | _ :: _ :: _, _ :: _ :: _, _, hlen => simp only [hlen]
    | app =>
      have hidx : ∀ xs : List Expr, (xs.drop 1).findIdx? isSort =
          ((xs.map isSort).drop 1).findIdx? id := by
        intro xs
        rw [← List.map_drop, List.findIdx?_map]
        rfl
      simp only [hidx, h]
    | sort =>
      have hany : as.any isSort = bs.any isSort := by
        have := congrArg (·.any id) h
        simpa [List.any_map] using this
      simp only [hany]

/-- A dictionary binds names to well-formed terms only. -/
def BindsTerms (d : Bindings) : Prop :=
  ∀ n x, d.get? n = some x → x.WellFormed ∧ x.isSort = false

theorem WellFormed.subst {d : Bindings} (hd : BindsTerms d) {e : Expr} (he : e.WellFormed) :
    (e.subst d).WellFormed ∧ (e.subst d).isSort = e.isSort := by
  induction e with
  | node k s as ih =>
    obtain ⟨hshape, hargs⟩ := wellFormed_node_iff.mp he
    have hnode : WellFormed (.node k s (as.map (Expr.subst d))) := by
      refine wellFormed_node_iff.mpr ⟨?_, fun a' ha' => ?_⟩
      · rw [← hshape]
        refine checkShape_congr ?_
        rw [List.map_map]
        exact List.map_congr_left fun a ha => (ih a ha (hargs a ha)).2
      · obtain ⟨a, ha, rfl⟩ := List.mem_map.mp ha'
        exact (ih a ha (hargs a ha)).1
    cases k with
    | var =>
      unfold Expr.subst
      cases hb : d.get? s with
      | some x => exact hd s x hb
      | none =>
        rw [substAll_eq_map]
        exact ⟨hnode, rfl⟩
    | app =>
      rw [Expr.subst, substAll_eq_map]
      · exact ⟨hnode, rfl⟩
      · intro h
        cases h
    | sort =>
      rw [Expr.subst, substAll_eq_map]
      · exact ⟨hnode, rfl⟩
      · intro h
        cases h

end Expr

/-- What holds of both sides of a rule holds of them whichever way it is applied. -/
theorem Rule.both {P : Expr → Prop} {r : Rule} (h : P r.left ∧ P r.right) (dir : Direction) :
    P (r.matched dir) ∧ P (r.produced dir) := by
  cases dir with
  | forward => exact h
  | reverse => exact h.symm

namespace Theory

open SortedRewriting.Expr (BindsTerms)

/-! ## Inference and elaboration -/

/-- Every operator is declared with well-formed expressions. -/
def OpsWellFormed (t : Theory) : Prop :=
  ∀ (sym : String) decl, t.ops[sym]? = some decl →
    decl.sort.WellFormed ∧ ∀ a ∈ decl.args, a.WellFormed

theorem matchArgs_binds {sym : String} {ps as : List Expr} (hps : ∀ p ∈ ps, p.WellFormed)
    (has : ∀ a ∈ as, a.WellFormed) {index : Nat} {d d' : Bindings} (hd : BindsTerms d)
    (h : matchArgs sym index d ps as = .ok d') : BindsTerms d' := by
  induction ps generalizing as index d with
  | nil =>
    cases h
    exact hd
  | cons p ps ih =>
    cases as with
    | nil =>
      cases h
      exact hd
    | cons a as =>
      obtain ⟨hp, hps⟩ := List.forall_mem_cons.mp hps
      obtain ⟨ha, has⟩ := List.forall_mem_cons.mp has
      unfold matchArgs at h
      simp only at h
      split at h
      · exact absurd h nofun
      · rename_i hm
        split at h
        · exact absurd h nofun
        · rename_i hmerge
          refine ih hps has (fun n x hx => ?_) h
          obtain ⟨-, -, hget⟩ := Bindings.merge_sound (by simpa using hmerge)
          rcases (hget n x).mp hx with hx | hx
          · exact hd n x hx
          · obtain ⟨hsub, hs⟩ := Expr.matchWith_binds hp (by simpa using hm) hx
            exact ⟨ha.subterm hsub, hs⟩

theorem infer_wellFormed {t : Theory} (ht : t.OpsWellFormed) {sym : String} {args : List Expr}
    (hargs : ∀ a ∈ args, a.WellFormed) {sort : Expr} (h : t.infer sym args = .ok sort) :
    sort.WellFormed := by
  unfold infer at h
  split at h
  · exact absurd h nofun
  · rename_i decl hdecl
    obtain ⟨hsort, hps⟩ := ht sym decl hdecl
    split at h
    · exact absurd h nofun
    · obtain ⟨d, hd, h⟩ := bind_eq_ok_iff.mp h
      cases h
      exact (hsort.subst (matchArgs_binds hps hargs (fun n x hx => by simp at hx) hd)).1

theorem ofShape_build_eq_ok_iff {k : Kind} {s : String} {as : List Expr} {e : Expr} :
    ElaborationError.ofShape (Expr.build k s as) = .ok e ↔
      Expr.checkShape k s as = .ok () ∧ e = .node k s as := by
  rw [← Expr.build_eq_ok_iff]
  cases Expr.build k s as with
  | error err => exact ⟨nofun, nofun⟩
  | ok e' => exact ⟨fun h => congrArg Except.ok (Except.ok.inj h), fun h => congrArg _ (Except.ok.inj h)⟩

/-- A node that is built of well-formed children is well formed. -/
theorem wellFormed_of_build {k : Kind} {s : String} {as : List Expr} {e : Expr}
    (has : ∀ a ∈ as, a.WellFormed)
    (h : ElaborationError.ofShape (Expr.build k s as) = .ok e) : e.WellFormed := by
  obtain ⟨hshape, rfl⟩ := ofShape_build_eq_ok_iff.mp h
  exact .node hshape has

variable {t : Theory}

mutual

/-- An elaborated expression is well formed, whatever the expression was. -/
theorem elaborateExpr_wellFormed (ht : t.OpsWellFormed) : (e : Expr) → ∀ {e' : Expr},
    t.elaborateExpr e = .ok e' → e'.WellFormed
  | .node .app s as, e', h => by
    unfold elaborateExpr at h
    obtain ⟨operands, hoperands, h⟩ := bind_eq_ok_iff.mp h
    obtain ⟨sort, hsort, h⟩ := bind_eq_ok_iff.mp h
    have hwf := elaborateOperands_wellFormed ht as hoperands
    exact wellFormed_of_build (List.forall_mem_cons.mpr ⟨infer_wellFormed ht hwf hsort, hwf⟩) h
  | .node .var s as, e', h => by
    unfold elaborateExpr at h
    obtain ⟨as', has, h⟩ := bind_eq_ok_iff.mp h
    exact wellFormed_of_build (elaborateAll_wellFormed ht as has) h
  | .node .sort s as, e', h => by
    unfold elaborateExpr at h
    obtain ⟨as', has, h⟩ := bind_eq_ok_iff.mp h
    exact wellFormed_of_build (elaborateAll_wellFormed ht as has) h

theorem elaborateAll_wellFormed (ht : t.OpsWellFormed) : (as : List Expr) → ∀ {as' : List Expr},
    t.elaborateAll as = .ok as' → ∀ a ∈ as', a.WellFormed
  | [], as', h => by
    cases h
    simp
  | a :: as, as', h => by
    unfold elaborateAll at h
    obtain ⟨a', rest, ha, has, rfl⟩ := bind₂_eq_ok_iff.mp h
    exact List.forall_mem_cons.mpr
      ⟨elaborateExpr_wellFormed ht a ha, elaborateAll_wellFormed ht as has⟩

theorem elaborateOperands_wellFormed (ht : t.OpsWellFormed) : (as : List Expr) →
    ∀ {as' : List Expr}, t.elaborateOperands as = .ok as' → ∀ a ∈ as', a.WellFormed
  | [], as', h => by
    cases h
    simp
  | a :: as, as', h => by
    unfold elaborateOperands at h
    split at h
    · exact elaborateAll_wellFormed ht as h
    · obtain ⟨a', rest, ha, has, rfl⟩ := bind₂_eq_ok_iff.mp h
      exact List.forall_mem_cons.mpr
        ⟨elaborateExpr_wellFormed ht a ha, elaborateAll_wellFormed ht as has⟩

end

/-! ## Theories -/

/-- A theory as the library makes it: declared, of well-formed expressions, or elaborated. -/
inductive Made : Theory → Prop
  | declared {name : String} {sorts : List (String × SortDecl)} {ops : List (String × OpDecl)}
      {rules : List Rule} {t : Theory} (wellFormed : ∀ e ∈ t.patterns, e.WellFormed)
      (declare : Theory.declare name sorts ops rules = .ok t) : Made t
  | elaborated {t t' : Theory} (made : Made t) (elaborate : t.elaborate = .ok t') : Made t'

/-- Every operator and every rule is of well-formed expressions. -/
structure Sound (t : Theory) : Prop where
  ops : t.OpsWellFormed
  rules : ∀ r ∈ t.rules, r.left.WellFormed ∧ r.right.WellFormed

theorem sound_of_patterns (h : ∀ e ∈ t.patterns, e.WellFormed) : t.Sound := by
  unfold patterns at h
  simp only [List.mem_append, List.mem_flatMap] at h
  constructor
  · intro sym decl hdecl
    have hmem : (sym, decl) ∈ t.ops.toList :=
      Std.ExtTreeMap.mem_toList_iff_getElem?_eq_some.mpr hdecl
    have hall : ∀ e ∈ decl.sort :: decl.args, e.WellFormed := fun e he =>
      h e (.inl (.inr ⟨(sym, decl), hmem, he⟩))
    exact List.forall_mem_cons.mp hall
  · intro r hr
    have hall : ∀ e ∈ [r.left, r.right], e.WellFormed := fun e he => h e (.inr ⟨r, hr, he⟩)
    simpa using hall

/-! ## Elaborated theories -/

variable {work t' : Theory}

theorem elaborateOp_eq_ok_iff {decl decl' : OpDecl} : t.elaborateOp decl = .ok decl' ↔
    ∃ sort args, t.elaborateExpr decl.sort = .ok sort ∧ t.elaborateAll decl.args = .ok args ∧
      decl' = { decl with sort, args } :=
  bind₂_eq_ok_iff

theorem elaborateSort_eq_ok_iff {d d' : SortDecl} : t.elaborateSort d = .ok d' ↔
    ∃ args, t.elaborateAll d.args = .ok args ∧ d' = { d with args } := by
  unfold elaborateSort
  rw [bind_eq_ok_iff]
  exact exists_congr fun args => and_congr_right fun _ =>
    ⟨fun h => (Except.ok.inj h).symm, fun h => congrArg Except.ok h.symm⟩

theorem elaborateRule_eq_ok_iff {r r' : Rule} : t.elaborateRule r = .ok r' ↔
    ∃ left right, t.elaborateExpr r.left = .ok left ∧ t.elaborateExpr r.right = .ok right ∧
      r' = { r with left, right } :=
  bind₂_eq_ok_iff

/-- The sides of elaborated rules are elaborations. -/
theorem exists_sides_of_mem {rs rs' : List Rule}
    (h : List.Forall₂ (fun r r' => t.elaborateRule r = .ok r') rs rs') {r : Rule} (hr : r ∈ rs') :
    ∃ left right, t.elaborateExpr left = .ok r.left ∧ t.elaborateExpr right = .ok r.right := by
  obtain ⟨r₀, -, hr₀⟩ := exists_of_mem_left h.flip hr
  obtain ⟨left, right, hleft, hright, rfl⟩ := elaborateRule_eq_ok_iff.mp hr₀
  exact ⟨r₀.left, r₀.right, hleft, hright⟩

/-- An operator is replaced by its elaboration over what is there. -/
theorem elaborateNext_eq_ok {f : String} {decl : OpDecl} {final : Theory}
    (hf : t.ops[f]? = some decl) (h : elaborateNext t work f = .ok final) :
    ∃ decl', work.elaborateOp decl = .ok decl' ∧
      final = { work with ops := work.ops.insert f decl' } := by
  unfold elaborateNext at h
  rw [hf] at h
  obtain ⟨decl', hdecl', h⟩ := bind_eq_ok_iff.mp h
  cases h
  exact ⟨decl', hdecl', rfl⟩

theorem elaborateNext_of_none {f : String} {final : Theory} (hf : t.ops[f]? = none)
    (h : elaborateNext t work f = .ok final) : final = work := by
  unfold elaborateNext at h
  rw [hf] at h
  cases h
  rfl

/-- What the elaboration of a raw theory does. -/
theorem elaborate_eq_ok (hraw : t.elaborated = false) (h : t.elaborate = .ok t') :
    ∃ order work sorts rules, t.operatorOrder = .ok order ∧
      order.foldlM (elaborateNext t) t = .ok work ∧
      List.Forall₂ (fun d d' => d.1 = d'.1 ∧ work.elaborateSort d.2 = .ok d'.2)
        t.sorts.toList sorts ∧
      List.Forall₂ (fun r r' => work.elaborateRule r = .ok r') t.rules rules ∧
      t' = { work with sorts := .ofList sorts, rules, elaborated := true } := by
  unfold Theory.elaborate at h
  rw [hraw] at h
  simp only [Bool.false_eq_true, if_false] at h
  split at h
  · exact absurd h nofun
  · rename_i order horder
    obtain ⟨work, hwork, h⟩ := bind_eq_ok_iff.mp h
    obtain ⟨sorts, hsorts, h⟩ := bind_eq_ok_iff.mp h
    obtain ⟨rules, hrules, h⟩ := bind_eq_ok_iff.mp h
    cases h
    refine ⟨order, work, sorts, rules, horder, hwork, ?_, mapM_eq_ok_iff.mp hrules, rfl⟩
    refine (mapM_eq_ok_iff.mp hsorts).imp ?_
    rintro ⟨sym, decl⟩ d' hd'
    obtain ⟨decl', hdecl', hd'⟩ := bind_eq_ok_iff.mp hd'
    cases hd'
    exact ⟨rfl, hdecl'⟩

theorem elaborate_of_elaborated (h : t.elaborated = true) : t.elaborate = .ok t := by
  unfold Theory.elaborate
  rw [if_pos h]

theorem elaborateNext_ops {work work' : Theory} (hwork : work.OpsWellFormed) {sym : String}
    (h : elaborateNext t work sym = .ok work') : work'.OpsWellFormed := by
  cases hdecl : t.ops[sym]? with
  | none =>
    rw [elaborateNext_of_none hdecl h]
    exact hwork
  | some decl =>
    obtain ⟨decl', hop, rfl⟩ := elaborateNext_eq_ok hdecl h
    intro sym' decl'' hget
    rw [Std.ExtTreeMap.getElem?_insert] at hget
    split at hget
    · cases hget
      obtain ⟨sort, args, hsort, hargs, rfl⟩ := elaborateOp_eq_ok_iff.mp hop
      exact ⟨elaborateExpr_wellFormed hwork _ hsort, elaborateAll_wellFormed hwork _ hargs⟩
    · exact hwork sym' decl'' hget

theorem foldlM_elaborateNext_ops {order : List String} {work work' : Theory}
    (hwork : work.OpsWellFormed) (h : order.foldlM (elaborateNext t) work = .ok work') :
    work'.OpsWellFormed := by
  induction order generalizing work with
  | nil =>
    cases h
    exact hwork
  | cons sym order ih =>
    rw [List.foldlM_cons] at h
    obtain ⟨next, hnext, h⟩ := bind_eq_ok_iff.mp h
    exact ih (elaborateNext_ops hwork hnext) h

/-- Elaboration keeps a theory sound. -/
theorem Sound.elaborate (ht : t.Sound) (h : t.elaborate = .ok t') : t'.Sound := by
  cases hraw : t.elaborated with
  | true =>
    cases (elaborate_of_elaborated hraw).symm.trans h
    exact ht
  | false =>
    obtain ⟨order, work, sorts, rules, -, hwork, -, hrules, rfl⟩ := elaborate_eq_ok hraw h
    have hops := foldlM_elaborateNext_ops ht.ops hwork
    refine ⟨hops, fun r hr => ?_⟩
    obtain ⟨left, right, hleft, hright⟩ := exists_sides_of_mem hrules hr
    exact ⟨elaborateExpr_wellFormed hops _ hleft, elaborateExpr_wellFormed hops _ hright⟩

/-- The sides of a rule are well formed, whichever way it is applied. -/
theorem Sound.sides (h : t.Sound) {r : Rule} (hr : r ∈ t.rules) (dir : Direction) :
    (r.matched dir).WellFormed ∧ (r.produced dir).WellFormed :=
  Rule.both (h.rules r hr) dir

/-- A theory that is declared of well-formed expressions and passes a check. -/
theorem exists_made (name : String) (sorts : List (String × SortDecl))
    (ops : List (String × OpDecl)) (rules : List Rule) {P : Theory → Bool}
    (h : (Theory.declare name sorts ops rules).toOption.any
      (fun t => t.patterns.all (fun e => decide e.WellFormed) && P t) = true) :
    ∃ t : Theory, t.Made ∧ P t = true := by
  obtain ⟨t, ht, h⟩ := exists_ok_of_any h
  obtain ⟨hwf, hP⟩ := Bool.and_eq_true_iff.mp h
  exact ⟨t, .declared (fun e he => of_decide_eq_true (List.all_eq_true.mp hwf e he)) ht, hP⟩

/-- **A theory that the library makes is of well-formed expressions.** -/
theorem Made.sound (h : t.Made) : t.Sound := by
  induction h with
  | declared wellFormed _ => exact sound_of_patterns wellFormed
  | elaborated _ elaborate ih => exact ih.elaborate elaborate

end Theory

end SortedRewriting
