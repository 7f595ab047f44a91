import SortedRewriting.Proofs.Engine.Decoding
import SortedRewriting.Proofs.Expr.Checked
import SortedRewriting.Proofs.Theory.FixedPoint
import SortedRewriting.Proofs.Theory.Substitution

/-!
# No operation makes a malformed expression

Elaboration substitutes whenever it infers a sort. The checked elaboration below does the same with
a substitution that checks every node, and reports a node that breaks a shape rule as `malformed`,
as the rest of elaboration does.

* `Theory.Unbroken`: two runs are the same and meet no broken shape rule.
* `Theory.OpsWellFormed.unbroken_elaborateExpr`: the checked elaboration of a well-formed expression
  is the plain one, over any table of well-formed declarations.
* `Theory.Made.unbroken_elaborate`: the table stays so while operators are elaborated one after the
  other, and so the checked elaboration of a theory is the plain one.
* **`Theory.Made.keepsShape`**: what is substituted, erased, inferred, elaborated or decoded is well
  formed.
-/

namespace SortedRewriting.Theory

variable {t t' work : Theory} {sym : String} {args as : List Expr} {e : Expr}

/-! ## Checked elaboration -/

/-- The sort of an application, by a substitution that checks every node. -/
def inferChecked (t : Theory) (sym : String) (args : List Expr) : Except ElaborationError Expr :=
  match t.ops[sym]? with
  | none => .error (.unknownOperator sym)
  | some decl =>
    if decl.args.length ≠ args.length then .error (.arity sym decl.args.length args.length)
    else do
      let d ← matchArgs sym 0 .empty decl.args args
      ElaborationError.ofShape (decl.sort.substChecked d)

mutual

/-- Elaborates an expression, with checked inference. -/
def elaborateExprChecked (t : Theory) : Expr → Except ElaborationError Expr
  | .node .app s as => do
    let operands ← elaborateOperandsChecked t as
    let sort ← t.inferChecked s operands
    ElaborationError.ofShape (Expr.build .app s (sort :: operands))
  | .node k s as => do
    let as ← elaborateAllChecked t as
    ElaborationError.ofShape (Expr.build k s as)

/-- Elaborates a list of expressions, with checked inference. -/
def elaborateAllChecked (t : Theory) : List Expr → Except ElaborationError (List Expr)
  | [] => .ok []
  | a :: as => do
    let a ← elaborateExprChecked t a
    let as ← elaborateAllChecked t as
    return a :: as

/-- Elaborates the operands among the children of an application, with checked inference. -/
def elaborateOperandsChecked (t : Theory) : List Expr → Except ElaborationError (List Expr)
  | [] => .ok []
  | a :: as =>
    if a.isSort then elaborateAllChecked t as
    else do
      let a ← elaborateExprChecked t a
      let as ← elaborateAllChecked t as
      return a :: as

end

/-- Elaborates the patterns of an operator, with checked inference. -/
def elaborateOpChecked (t : Theory) (decl : OpDecl) : Except ElaborationError OpDecl := do
  let sort ← t.elaborateExprChecked decl.sort
  let args ← t.elaborateAllChecked decl.args
  return { decl with sort, args }

/-- Elaborates the parameters of a sort constructor, with checked inference. -/
def elaborateSortChecked (t : Theory) (decl : SortDecl) : Except ElaborationError SortDecl := do
  let args ← t.elaborateAllChecked decl.args
  return { decl with args }

/-- Elaborates both sides of a rule, with checked inference. -/
def elaborateRuleChecked (t : Theory) (r : Rule) : Except ElaborationError Rule := do
  let left ← t.elaborateExprChecked r.left
  let right ← t.elaborateExprChecked r.right
  return { r with left, right }

/-- Elaborates an operator over a partly elaborated theory, with checked inference. -/
def elaborateNextChecked (t work : Theory) (sym : String) : Except ElaborationError Theory :=
  match t.ops[sym]? with
  | none => .ok work
  | some decl => do
    let decl ← work.elaborateOpChecked decl
    return { work with ops := work.ops.insert sym decl }

/-- Elaborates every declaration and rule, with checked inference. -/
def elaborateChecked (t : Theory) : Except ElaborationError Theory :=
  if t.elaborated then .ok t
  else match t.operatorOrder with
  | .error syms => .error (.cycle syms)
  | .ok order => do
    let work ← order.foldlM (elaborateNextChecked t) t
    let sorts ← t.sorts.toList.mapM fun (sym, decl) => do
      let decl ← work.elaborateSortChecked decl
      return (sym, decl)
    let rules ← t.rules.mapM work.elaborateRuleChecked
    return { work with sorts := .ofList sorts, rules, elaborated := true }

/-! ## Runs that meet no broken shape rule -/

/-- Two runs are the same, and they do not end in a broken shape rule. -/
structure Unbroken {α : Type} (checked plain : Except ElaborationError α) : Prop where
  same : checked = plain
  shape : ∀ err, plain ≠ .error (.malformed err)

section

variable {α β : Type} {x x' : Except ElaborationError α}

theorem Unbroken.ok (a : α) : Unbroken (.ok a) (.ok a) := ⟨rfl, nofun⟩

theorem Unbroken.bind {f f' : α → Except ElaborationError β} (hx : Unbroken x' x)
    (hf : ∀ a, x = .ok a → Unbroken (f' a) (f a)) : Unbroken (x' >>= f') (x >>= f) := by
  obtain ⟨rfl, hshape⟩ := hx
  cases x' with
  | error err => exact ⟨rfl, fun err' h => hshape err' (by cases h; rfl)⟩
  | ok a => exact hf a rfl

theorem Unbroken.mapM {f f' : α → Except ElaborationError β} {l : List α}
    (h : ∀ a ∈ l, Unbroken (f' a) (f a)) : Unbroken (l.mapM f') (l.mapM f) := by
  induction l with
  | nil => exact .ok []
  | cons a l ih =>
    obtain ⟨ha, hl⟩ := List.forall_mem_cons.mp h
    rw [List.mapM_cons, List.mapM_cons]
    exact ha.bind fun b _ => (ih hl).bind fun bs _ => .ok (b :: bs)

/-- Steps that keep an invariant, and that are unbroken where it holds. -/
theorem Unbroken.foldlM {f f' : β → α → Except ElaborationError β} {P : β → Prop}
    (hf : ∀ b a, P b → Unbroken (f' b a) (f b a) ∧ ∀ b', f b a = .ok b' → P b') {l : List α} {b : β}
    (hb : P b) : Unbroken (l.foldlM f' b) (l.foldlM f b) := by
  induction l generalizing b with
  | nil => exact .ok b
  | cons a l ih =>
    rw [List.foldlM_cons, List.foldlM_cons]
    exact (hf b a hb).1.bind fun b' hb' => ih ((hf b a hb).2 b' hb')

end

/-! ## Inference -/

/-- Arguments that do not match are no malformed expressions. -/
theorem matchArgs_ne_malformed {ps : List Expr} {index : Nat} {d : Bindings} {err : ShapeError} :
    matchArgs sym index d ps as ≠ .error (.malformed err) := by
  intro h
  induction ps generalizing as index d with
  | nil => cases h
  | cons p ps ih =>
    cases as with
    | nil => cases h
    | cons a as =>
      unfold matchArgs at h
      simp only at h
      split at h
      · cases h
      · split at h
        · cases h
        · exact ih h

/-- **No node of an inferred sort breaks a shape rule.** -/
theorem OpsWellFormed.unbroken_infer (ht : t.OpsWellFormed) (hargs : ∀ a ∈ args, a.WellFormed) :
    Unbroken (t.inferChecked sym args) (t.infer sym args) := by
  unfold inferChecked infer
  cases hdecl : t.ops[sym]? with
  | none => exact ⟨rfl, nofun⟩
  | some decl =>
    obtain ⟨hsort, hps⟩ := ht sym decl hdecl
    simp only
    by_cases hlen : decl.args.length ≠ args.length
    · rw [if_pos hlen, if_pos hlen]
      exact ⟨rfl, nofun⟩
    · rw [if_neg hlen, if_neg hlen]
      refine Unbroken.bind ⟨rfl, fun err => matchArgs_ne_malformed⟩ fun d hd => ?_
      have hbinds := matchArgs_binds hps hargs Expr.bindsTerms_empty hd
      rw [hsort.substChecked hbinds]
      exact .ok _

/-! ## Expressions -/

theorem elaborateOperandsChecked_eq :
    t.elaborateOperandsChecked as = t.elaborateAllChecked (Expr.splitSort as).2 := by
  cases as with
  | nil => rfl
  | cons a as =>
    rw [elaborateOperandsChecked, Expr.splitSort]
    split
    · rfl
    · rfl

theorem elaborateExprChecked_node {k : Kind} {s : String} (hk : k ≠ .app) :
    t.elaborateExprChecked (.node k s as) =
      t.elaborateAllChecked as >>= fun bs => ElaborationError.ofShape (Expr.build k s bs) := by
  cases k with
  | app => exact absurd rfl hk
  | var => rw [elaborateExprChecked]; exact fun h => hk h
  | sort => rw [elaborateExprChecked]; exact fun h => hk h

theorem unbroken_elaborateAll
    (h : ∀ a ∈ as, Unbroken (t.elaborateExprChecked a) (t.elaborateExpr a)) :
    Unbroken (t.elaborateAllChecked as) (t.elaborateAll as) := by
  induction as with
  | nil => exact .ok []
  | cons a as ih =>
    obtain ⟨ha, has⟩ := List.forall_mem_cons.mp h
    rw [elaborateAllChecked, elaborateAll]
    exact ha.bind fun b _ => (ih has).bind fun bs _ => .ok (b :: bs)

theorem unbroken_build {k : Kind} {s : String} (h : Expr.checkShape k s as = .ok ()) :
    Unbroken (ElaborationError.ofShape (Expr.build k s as))
      (ElaborationError.ofShape (Expr.build k s as)) := by
  rw [Expr.build_eq_ok_iff.mpr ⟨h, rfl⟩]
  exact .ok _

/-- Elaboration keeps sorts sorts and terms terms. -/
theorem map_isSort_of_elaborateAll {bs : List Expr} (h : t.elaborateAll as = .ok bs) :
    bs.map Expr.isSort = as.map Expr.isSort := by
  refine List.forall₂_eq_eq_eq ▸ ?_
  rw [List.forall₂_map_left_iff, List.forall₂_map_right_iff]
  exact (elaborateAll_eq_ok_iff.mp h).flip.imp fun _ _ => isSort_of_elaborateExpr

/-- **The elaboration of a well-formed expression meets no broken shape rule.** -/
theorem OpsWellFormed.unbroken_elaborateExpr (ht : t.OpsWellFormed) (he : e.WellFormed) :
    Unbroken (t.elaborateExprChecked e) (t.elaborateExpr e) := by
  induction e with
  | node k s as ih =>
    obtain ⟨hshape, hwf⟩ := Expr.wellFormed_node_iff.mp he
    have hargs : ∀ a ∈ as, Unbroken (t.elaborateExprChecked a) (t.elaborateExpr a) :=
      fun a ha => ih a ha (hwf a ha)
    by_cases hk : k = .app
    · subst hk
      rw [elaborateExprChecked, elaborateOperandsChecked_eq, elaborateExpr_app]
      refine (unbroken_elaborateAll fun a ha => hargs a (Expr.mem_of_mem_splitSort ha)).bind
        fun operands hoperands => ?_
      refine (ht.unbroken_infer (elaborateAll_wellFormed ht _ hoperands)).bind fun sort _ => ?_
      -- the operands are terms, as they were, and any first child may be a sort
      refine unbroken_build (Expr.checkShape_app_iff.mpr
        ⟨(Expr.checkShape_app_iff.mp hshape).1, fun b hb => ?_⟩)
      obtain ⟨a, ha, hab⟩ := exists_of_mem_left (elaborateAll_eq_ok_iff.mp hoperands).flip hb
      rw [isSort_of_elaborateExpr hab]
      exact (Expr.mem_termsOf_iff.mp (he.operands_eq ▸ ha)).2
    · rw [elaborateExprChecked_node hk, elaborateExpr_node hk]
      refine (unbroken_elaborateAll hargs).bind fun bs hbs => unbroken_build ?_
      rw [← hshape]
      exact Expr.checkShape_congr (map_isSort_of_elaborateAll hbs)

/-! ## Theories -/

theorem OpsWellFormed.unbroken_elaborateOp (ht : t.OpsWellFormed) {decl : OpDecl}
    (hsort : decl.sort.WellFormed) (hargs : ∀ a ∈ decl.args, a.WellFormed) :
    Unbroken (t.elaborateOpChecked decl) (t.elaborateOp decl) :=
  (ht.unbroken_elaborateExpr hsort).bind fun _ _ =>
    (unbroken_elaborateAll fun a ha => ht.unbroken_elaborateExpr (hargs a ha)).bind fun _ _ => .ok _

theorem OpsWellFormed.unbroken_elaborateSort (ht : t.OpsWellFormed) {decl : SortDecl}
    (hargs : ∀ a ∈ decl.args, a.WellFormed) :
    Unbroken (t.elaborateSortChecked decl) (t.elaborateSort decl) :=
  (unbroken_elaborateAll fun a ha => ht.unbroken_elaborateExpr (hargs a ha)).bind fun _ _ => .ok _

theorem OpsWellFormed.unbroken_elaborateRule (ht : t.OpsWellFormed) {r : Rule}
    (hleft : r.left.WellFormed) (hright : r.right.WellFormed) :
    Unbroken (t.elaborateRuleChecked r) (t.elaborateRule r) :=
  (ht.unbroken_elaborateExpr hleft).bind fun _ _ =>
    (ht.unbroken_elaborateExpr hright).bind fun _ _ => .ok _

/-- One operator is elaborated over a table of well-formed declarations, which it stays. -/
theorem OpsWellFormed.unbroken_elaborateNext (ht : t.OpsWellFormed) (hwork : work.OpsWellFormed)
    (sym : String) :
    Unbroken (elaborateNextChecked t work sym) (elaborateNext t work sym) := by
  unfold elaborateNextChecked elaborateNext
  cases hdecl : t.ops[sym]? with
  | none => exact .ok work
  | some decl =>
    obtain ⟨hsort, hargs⟩ := ht sym decl hdecl
    exact (hwork.unbroken_elaborateOp hsort hargs).bind fun _ _ => .ok _

/-- The patterns of a theory that the library makes are well formed. -/
theorem Made.wellFormed_patterns (ht : t.Made) : ∀ e ∈ t.patterns, e.WellFormed := by
  cases ht with
  | declared wellFormed _ => exact wellFormed
  | elaborated made elaborate =>
    have ht' := made.elaborated elaborate
    exact fun e he =>
      ht'.wellFormed_of_fixed (ht'.fixed_patterns (elaborated_of_elaborate elaborate) e he)

/-- **The elaboration of a theory meets no broken shape rule**: not in any operator, each over the
table of those that are elaborated before it, and neither in the sort constructors and rules. -/
theorem Made.unbroken_elaborate (ht : t.Made) : Unbroken t.elaborateChecked t.elaborate := by
  have hops := ht.sound.ops
  unfold elaborateChecked elaborate
  by_cases hdone : t.elaborated = true
  · rw [if_pos hdone, if_pos hdone]
    exact .ok t
  rw [if_neg hdone, if_neg hdone]
  cases t.operatorOrder with
  | error syms => exact ⟨rfl, nofun⟩
  | ok order =>
    have hfold : Unbroken (order.foldlM (elaborateNextChecked t) t)
        (order.foldlM (elaborateNext t) t) :=
      Unbroken.foldlM (P := OpsWellFormed) (fun work sym hwork =>
        ⟨hops.unbroken_elaborateNext hwork sym, fun _ => elaborateNext_ops hwork⟩) hops
    refine hfold.bind fun work hwork => ?_
    have hwork := foldlM_elaborateNext_ops hops hwork
    refine Unbroken.bind (Unbroken.mapM fun d hd => ?_) fun sorts _ => ?_
    · have hd := Std.ExtTreeMap.mem_toList_iff_getElem?_eq_some.mp hd
      refine (hwork.unbroken_elaborateSort fun a ha => ?_).bind fun _ _ => .ok _
      exact ht.wellFormed_patterns a (mem_patterns_iff.mpr (.inl ⟨d.1, d.2, hd, ha⟩))
    · refine Unbroken.bind (Unbroken.mapM fun r hr => ?_) fun rules _ => .ok _
      obtain ⟨hleft, hright⟩ := ht.sound.rules r hr
      exact hwork.unbroken_elaborateRule hleft hright

/-! ## All operations -/

/-- Every operation on expressions makes well-formed expressions, and no node that it builds breaks
a shape rule. -/
structure KeepsShape (t : Theory) : Prop where
  /-- Substitution, by whatever operations the dictionary has been made. -/
  subst : ∀ (e : Expr) (d : Bindings), e.WellFormed → d.Obtained →
    (e.subst d).WellFormed ∧ e.substChecked d = .ok (e.subst d)
  /-- Erasure. -/
  erase : ∀ e : Expr, e.WellFormed → e.erase.WellFormed ∧ e.eraseChecked = .ok e.erase
  /-- Inference, which results in sorts. -/
  infer : ∀ (sym : String) (args : List Expr), (∀ a ∈ args, a.WellFormed) →
    Unbroken (t.inferChecked sym args) (t.infer sym args) ∧
      ∀ sort, t.infer sym args = .ok sort → sort.WellFormed ∧ sort.isSort = true
  /-- Elaboration of an expression. -/
  elaborateExpr : ∀ e : Expr, e.WellFormed →
    Unbroken (t.elaborateExprChecked e) (t.elaborateExpr e) ∧
      ∀ e', t.elaborateExpr e = .ok e' → e'.WellFormed
  /-- Elaboration of the theory. -/
  elaborate : Unbroken t.elaborateChecked t.elaborate ∧
    ∀ T, t.elaborate = .ok T → ∀ e ∈ T.patterns, e.WellFormed
  /-- Decoding, whatever has been registered. -/
  decode : ∀ (b : CodeBook) (x : Tree) (e : Expr), b.decode x = .ok e → e.WellFormed

/-- **No operation makes a malformed expression**, with any theory that the library makes: results
are well formed, no check of a node fails, and elaboration meets no broken shape rule. -/
theorem Made.keepsShape (ht : t.Made) : t.KeepsShape where
  subst e d he hd := ⟨(he.subst hd.bindsTerms).1, he.substChecked hd.bindsTerms⟩
  erase e he := ⟨he.erase, he.eraseChecked⟩
  infer sym args hargs := by
    refine ⟨ht.sound.ops.unbroken_infer hargs, fun sort hsort => ?_⟩
    exact ⟨infer_wellFormed ht.sound.ops hargs hsort, ht.consistent.isSort_of_infer hsort⟩
  elaborateExpr e he :=
    ⟨ht.sound.ops.unbroken_elaborateExpr he, fun _ => elaborateExpr_wellFormed ht.sound.ops e⟩
  elaborate := ⟨ht.unbroken_elaborate, fun _ hT => (ht.elaborated hT).wellFormed_patterns⟩
  decode _ _ _ := CodeBook.decode_wellFormed

end SortedRewriting.Theory

namespace SortedRewriting

open Arrows in
/-- A dictionary that has failed since, by binding the reserved name, still binds a variable. What
it puts in is well formed, and so is what is then erased and elaborated again. -/
theorem Theory.Made.keepsShape_identity : ∃ (t T : Theory) (d : Bindings),
    t.Made ∧ t.elaborate = .ok T ∧ d.Obtained ∧ d.isFailed = true ∧
    (∀ e ∈ T.patterns, e.WellFormed) ∧
    let x := objectVar "x"
    let y := image (objectVar "y")
    (identity (arrows x x) x).substChecked d = .ok (identity (arrows y y) y) ∧
    (identity (arrows y y) y).WellFormed ∧
    (identity (arrows y y) y).eraseChecked =
      .ok (.node .app "id" [.node .app "F" [objectVar "y"]]) ∧
    T.inferChecked "id" [y] = .ok (arrows y y) ∧ (arrows y y).WellFormed ∧
    T.elaborateExprChecked (.node .app "id" [.node .app "F" [objectVar "y"]]) =
      .ok (identity (arrows y y) y) := by
  obtain ⟨t, T, ht, hT, hinfer, helaborate⟩ := exists_elaborated (P := fun T =>
      T.infer "id" [image (objectVar "y")] =
        .ok (arrows (image (objectVar "y")) (image (objectVar "y"))) ∧
      T.elaborateExpr (.node .app "id" [.node .app "F" [objectVar "y"]]) =
        .ok (identity (arrows (image (objectVar "y")) (image (objectVar "y")))
          (image (objectVar "y")))) (by decide +kernel)
  have hkeeps := Theory.Made.keepsShape (ht.elaborated hT)
  have hwf : ∀ a ∈ [image (objectVar "y")], a.WellFormed := by decide +kernel
  let d := (Bindings.empty.bind "x" (image (objectVar "y"))).bind "" (objectVar "z")
  have hd : d.Obtained :=
    .bind (.bind .empty "x" (hwf _ List.mem_cons_self)) "" (by decide +kernel)
  obtain ⟨hsubst, hchecked⟩ := hkeeps.subst
    (identity (arrows (objectVar "x") (objectVar "x")) (objectVar "x")) d (by decide +kernel) hd
  have heq : (identity (arrows (objectVar "x") (objectVar "x")) (objectVar "x")).subst d =
      identity (arrows (image (objectVar "y")) (image (objectVar "y"))) (image (objectVar "y")) := by
    decide +kernel
  rw [heq] at hsubst hchecked
  obtain ⟨hsame, hsort⟩ := hkeeps.infer "id" _ hwf
  obtain ⟨hsame', -⟩ := hkeeps.elaborateExpr
    (.node .app "id" [.node .app "F" [objectVar "y"]]) (by decide +kernel)
  exact ⟨t, T, d, ht, hT, hd, by decide +kernel,
    (Theory.Made.keepsShape ht).elaborate.2 T hT, hchecked, hsubst,
    (hkeeps.erase _ hsubst).2.trans (by decide +kernel), hsame.same.trans hinfer,
    (hsort _ hinfer).1, hsame'.same.trans helaborate⟩

end SortedRewriting
