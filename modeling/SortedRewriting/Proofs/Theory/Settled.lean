import SortedRewriting.Proofs.Theory.Order
import SortedRewriting.Proofs.Theory.Sorting

/-!
# Elaborated theories are well sorted

Elaboration goes through the operators in order. What it looks up for a declaration is elaborated
already, so each declaration becomes well sorted over those before it.

* `Theory.Made.exists_raw`: an elaborated theory is the elaboration of one that is not.
* `Theory.Made.consistent`: in a theory that the library makes, no operator is a sort constructor
  too, and every operator results in a sort.
* `Theory.wellSorted_of_ordered`: the declarations that are elaborated in order are well sorted.
* **`Theory.Made.settled`**: an elaborated theory with closed declarations is settled, and the sides
  of its rules are well sorted.
-/

namespace SortedRewriting

/-! ## Closed declarations -/

instance (decl : OpDecl) : Decidable decl.Closed :=
  decidable_of_iff (SingleSorted (decl.sort :: decl.args) ∧
      ∀ name ∈ decl.sort.varNames.toList, ∃ a ∈ decl.args, name ∈ a.varNames) <| by
    simp only [Std.ExtTreeSet.mem_toList]
    exact ⟨fun h => ⟨h.1, h.2⟩, fun h => ⟨h.singleSorted, h.bound⟩⟩

namespace Theory

variable {t t' work final : Theory} {done order : List String} {f : String} {decl : OpDecl}

/-- All operators have closed declarations. -/
def Closed (t : Theory) : Prop :=
  ∀ (sym : String) (decl : OpDecl), t.ops[sym]? = some decl → decl.Closed

instance (t : Theory) : Decidable t.Closed :=
  decidable_of_iff (∀ d ∈ t.ops.toList, d.2.Closed)
    ⟨fun h sym decl hdecl =>
        h (sym, decl) (Std.ExtTreeMap.mem_toList_iff_getElem?_eq_some.mpr hdecl),
      fun h d hd => h d.1 d.2 (Std.ExtTreeMap.mem_toList_iff_getElem?_eq_some.mp hd)⟩

/-! ## Declarations -/

/-- No operator is declared as a sort constructor too, and every operator results in a sort. -/
def Consistent (t : Theory) : Prop :=
  ∀ (sym : String) (decl : OpDecl), t.ops[sym]? = some decl →
    sym ∉ t.sorts ∧ decl.sort.isSort = true

theorem Consistent.notMem_sorts (h : t.Consistent) (hf : f ∈ t.ops) : f ∉ t.sorts := by
  obtain ⟨decl, hdecl⟩ := mem_ops_iff.mp hf
  exact (h f decl hdecl).1

/-- An operator is added if it is no sort constructor and results in a sort. -/
theorem addOp_eq_ok {sorts : Std.ExtTreeMap String SortDecl}
    {ops ops' : Std.ExtTreeMap String OpDecl}
    (h : addOp sorts ops f decl = .ok ops') :
    ops' = ops.insert f decl ∧ f ∉ sorts ∧ decl.sort.isSort = true := by
  unfold addOp at h
  split at h
  · exact absurd h nofun
  split at h
  · exact absurd h nofun
  rename_i hsorts
  split at h
  · exact absurd h nofun
  rename_i hsort
  split at h
  · exact absurd h nofun
  split at h
  · exact absurd h nofun
  cases h
  rw [Std.ExtTreeMap.contains_iff_mem] at hsorts
  exact ⟨rfl, hsorts, by simpa using hsort⟩

theorem foldlM_addOp_consistent {sorts : Std.ExtTreeMap String SortDecl}
    {decls : List (String × OpDecl)} {ops ops' : Std.ExtTreeMap String OpDecl}
    (hops : ∀ (sym : String) (decl : OpDecl), ops[sym]? = some decl →
      sym ∉ sorts ∧ decl.sort.isSort = true)
    (h : decls.foldlM (fun m d => addOp sorts m d.1 d.2) ops = Except.ok ops') :
    ∀ (sym : String) (decl : OpDecl), ops'[sym]? = some decl →
      sym ∉ sorts ∧ decl.sort.isSort = true := by
  induction decls generalizing ops with
  | nil =>
    cases h
    exact hops
  | cons d decls ih =>
    rw [List.foldlM_cons] at h
    obtain ⟨next, hnext, h⟩ := bind_eq_ok_iff.mp h
    obtain ⟨rfl, hsorts, hsort⟩ := addOp_eq_ok hnext
    refine ih (fun sym decl hdecl => ?_) h
    rw [Std.ExtTreeMap.getElem?_insert] at hdecl
    split at hdecl
    · rename_i heq
      cases hdecl
      cases Std.LawfulEqCmp.compare_eq_iff_eq.mp heq
      exact ⟨hsorts, hsort⟩
    · exact hops sym decl hdecl

theorem consistent_of_declare {name : String} {sorts : List (String × SortDecl)}
    {ops : List (String × OpDecl)} {rules : List Rule}
    (h : Theory.declare name sorts ops rules = .ok t) : t.Consistent ∧ t.elaborated = false := by
  obtain ⟨sorts, -, h⟩ := bind_eq_ok_iff.mp h
  obtain ⟨ops, hops, h⟩ := bind_eq_ok_iff.mp h
  cases h
  exact ⟨foldlM_addOp_consistent (fun sym decl hdecl => by simp at hdecl) hops, rfl⟩

/-! ## One declaration after another -/

/-- Elaboration keeps the kind of an expression. -/
theorem isSort_of_elaborateExpr {e e' : Expr} (h : t.elaborateExpr e = .ok e') :
    e'.isSort = e.isSort := by
  obtain ⟨k, s, as⟩ := e
  by_cases hk : k = .app
  · subst hk
    obtain ⟨sort, operands, -, -, -, rfl⟩ := elaborateExpr_app_eq_ok_iff.mp h
    rfl
  · obtain ⟨bs, -, -, rfl⟩ := (elaborateExpr_eq_ok_iff hk).mp h
    rfl

/-- All other operators stay as they are. -/
theorem elaborateNext_getElem? (h : elaborateNext t work f = .ok final) {g : String} (hg : g ≠ f) :
    final.ops[g]? = work.ops[g]? := by
  cases hf : t.ops[f]? with
  | none => rw [elaborateNext_of_none hf h]
  | some decl =>
    obtain ⟨decl', -, rfl⟩ := elaborateNext_eq_ok hf h
    rw [Std.ExtTreeMap.getElem?_insert, if_neg]
    exact fun heq => hg (Std.LawfulEqCmp.compare_eq_iff_eq.mp heq).symm

theorem foldlM_elaborateNext_getElem? (h : order.foldlM (elaborateNext t) work = .ok final)
    {g : String} (hg : g ∉ order) : final.ops[g]? = work.ops[g]? := by
  induction order generalizing work with
  | nil =>
    cases h
    rfl
  | cons f order ih =>
    rw [List.foldlM_cons] at h
    obtain ⟨next, hnext, h⟩ := bind_eq_ok_iff.mp h
    obtain ⟨hne, hg⟩ := List.ne_and_not_mem_of_not_mem_cons hg
    rw [ih h hg, elaborateNext_getElem? hnext hne]

/-- The same symbols are declared, as consistently as before. -/
structure SameSymbols (t work : Theory) : Prop where
  sorts : work.sorts = t.sorts
  ops : ∀ sym, sym ∈ work.ops ↔ sym ∈ t.ops
  consistent : work.Consistent

theorem SameSymbols.next (ht : t.Consistent) (h : SameSymbols t work)
    (hnext : elaborateNext t work f = .ok final) : SameSymbols t final := by
  cases hf : t.ops[f]? with
  | none => rwa [elaborateNext_of_none hf hnext]
  | some decl =>
    obtain ⟨decl', hdecl', rfl⟩ := elaborateNext_eq_ok hf hnext
    obtain ⟨sort, args, hsort, -, rfl⟩ := elaborateOp_eq_ok_iff.mp hdecl'
    have hmem : f ∈ t.ops := mem_ops_iff.mpr ⟨decl, hf⟩
    refine ⟨h.sorts, fun sym => ?_, fun sym decl'' hget => ?_⟩
    · rw [Std.ExtTreeMap.mem_insert, h.ops]
      refine ⟨fun hor => hor.elim (fun heq => ?_) id, .inr⟩
      cases Std.LawfulEqCmp.compare_eq_iff_eq.mp heq
      exact hmem
    · rw [Std.ExtTreeMap.getElem?_insert] at hget
      split at hget
      · rename_i heq
        cases Std.LawfulEqCmp.compare_eq_iff_eq.mp heq
        cases hget
        obtain ⟨hsorts, hissort⟩ := ht f decl hf
        exact ⟨h.sorts ▸ hsorts, (isSort_of_elaborateExpr hsort).trans hissort⟩
      · exact h.consistent sym decl'' hget

theorem SameSymbols.fold (ht : t.Consistent) (h : SameSymbols t work)
    (hfold : order.foldlM (elaborateNext t) work = .ok final) : SameSymbols t final := by
  induction order generalizing work with
  | nil =>
    cases hfold
    exact h
  | cons f order ih =>
    rw [List.foldlM_cons] at hfold
    obtain ⟨next, hnext, hfold⟩ := bind_eq_ok_iff.mp hfold
    exact ih (h.next ht hnext) hfold

/-! ## All declarations in order -/

/-- Some operators of a theory. -/
def operatorsAmong (t : Theory) (syms : List String) : Operators :=
  fun sym => if sym ∈ syms then t.ops[sym]? else none

theorem operatorsAmong_eq_some_iff {syms : List String} : t.operatorsAmong syms f = some decl ↔
    f ∈ syms ∧ t.ops[f]? = some decl := by
  unfold operatorsAmong
  split
  · exact ⟨fun h => ⟨‹_›, h⟩, And.right⟩
  · exact ⟨nofun, fun h => absurd h.1 ‹_›⟩

/-- The result sort and the argument patterns of a declaration are well sorted. -/
def WellSortedDecl (ops : Operators) (decl : OpDecl) : Prop :=
  ∀ e ∈ decl.sort :: decl.args, WellSorted ops e

theorem WellSortedDecl.mono {ops ops' : Operators} (h : WellSortedDecl ops decl)
    (hle : ∀ s decl, ops s = some decl → ops' s = some decl) : WellSortedDecl ops' decl :=
  fun e he => (h e he).mono hle

/-- The operators that are done do not change any more, and are well sorted over each other. -/
structure Done (work final : Theory) (done : List String) : Prop where
  kept : ∀ sym ∈ done, work.ops[sym]? = final.ops[sym]?
  sorted : ∀ sym ∈ done, ∀ decl, final.ops[sym]? = some decl →
    WellSortedDecl (final.operatorsAmong done) decl

/-- What is elaborated over operators that are done, and mentions no others, is well sorted. -/
theorem Done.wellSorted (h : Done work final done) (hclosed : final.Closed)
    (hdeclared : WellDeclared final.operators) (hwork : work.OpsWellFormed) {e e' : Expr}
    (hmentions : ∀ u : Expr, u.IsSubterm e → u.sym ∈ work.ops → u.sym ∈ done)
    (he : work.elaborateExpr e = .ok e') : WellSorted (final.operatorsAmong done) e' := by
  have hsettled : SettledIn (final.operatorsAmong done) work := by
    refine ⟨fun s decl hs => ?_, fun s decl hs => ?_, fun s decl hs => ?_⟩
    · obtain ⟨hs, hdecl⟩ := operatorsAmong_eq_some_iff.mp hs
      exact (h.kept s hs).trans hdecl
    · exact hclosed s decl (operatorsAmong_eq_some_iff.mp hs).2
    · obtain ⟨hs, hdecl⟩ := operatorsAmong_eq_some_iff.mp hs
      exact h.sorted s hs decl hdecl decl.sort List.mem_cons_self
  refine hsettled.elaborateExpr ?_ hwork (fun u hu decl hdecl => ?_) he
  · exact fun s decl hs => hdeclared s decl (operatorsAmong_eq_some_iff.mp hs).2
  · have hdone := hmentions u hu (mem_ops_iff.mpr ⟨decl, hdecl⟩)
    exact operatorsAmong_eq_some_iff.mpr ⟨hdone, (h.kept u.sym hdone).symm.trans hdecl⟩

/-- One operator more is done. -/
theorem Done.next (h : Done work final done) (hsame : SameSymbols t work)
    (hclosed : final.Closed) (hdeclared : WellDeclared final.operators) (hwork : work.OpsWellFormed)
    (hneeded : ∀ g, t.DependsOn f g → g ∈ done) {next : Theory}
    (hnext : elaborateNext t work f = .ok next) (hf : next.ops[f]? = final.ops[f]?)
    (hnew : f ∉ done) : Done next final (f :: done) := by
  have hmono : ∀ s decl, final.operatorsAmong done s = some decl →
      final.operatorsAmong (f :: done) s = some decl := fun s decl hs =>
    operatorsAmong_eq_some_iff.mpr ((operatorsAmong_eq_some_iff.mp hs).imp_left
      (List.mem_cons_of_mem f))
  refine ⟨List.forall_mem_cons.mpr ⟨hf, fun sym hsym => ?_⟩,
    List.forall_mem_cons.mpr ⟨fun decl' hdecl' => ?_, fun sym hsym decl' hdecl' => ?_⟩⟩
  · have hne : sym ≠ f := fun heq => hnew (heq ▸ hsym)
    exact (elaborateNext_getElem? hnext hne).trans (h.kept sym hsym)
  · cases ht : t.ops[f]? with
    | none =>
      -- the operator would have been declared all along
      rw [elaborateNext_of_none ht hnext] at hf
      obtain ⟨decl, hdecl⟩ :=
        mem_ops_iff.mp ((hsame.ops f).mp (mem_ops_iff.mpr ⟨decl', hf.trans hdecl'⟩))
      rw [ht] at hdecl
      exact absurd hdecl nofun
    | some decl =>
      obtain ⟨decl'', hop, rfl⟩ := elaborateNext_eq_ok ht hnext
      rw [hdecl', Std.ExtTreeMap.getElem?_insert_self] at hf
      cases hf
      obtain ⟨sort, args, hsort, hargs, rfl⟩ := elaborateOp_eq_ok_iff.mp hop
      have hmentions : ∀ e ∈ decl.sort :: decl.args, ∀ u : Expr, u.IsSubterm e →
          u.sym ∈ work.ops → u.sym ∈ done := fun e he u hu hmem =>
        hneeded u.sym
          ⟨decl, ht, mem_dependencies_iff.mpr ⟨⟨e, he, u, hu, rfl⟩, (hsame.ops _).mp hmem⟩⟩
      obtain ⟨hmention, hmentions⟩ := List.forall_mem_cons.mp hmentions
      refine WellSortedDecl.mono (List.forall_mem_cons.mpr ⟨?_, fun e' he' => ?_⟩) hmono
      · exact h.wellSorted hclosed hdeclared hwork hmention hsort
      · obtain ⟨e, he, helaborate⟩ := exists_of_mem_left (elaborateAll_eq_ok_iff.mp hargs).flip he'
        exact h.wellSorted hclosed hdeclared hwork (hmentions e he) helaborate
  · exact (h.sorted sym hsym decl' hdecl').mono hmono

/-- **Declarations that are elaborated in order are well sorted.** -/
theorem wellSorted_of_ordered (ht : t.Consistent) (hclosed : final.Closed)
    (hdeclared : WellDeclared final.operators) (hordered : Ordered t.DependsOn done order)
    (hsame : SameSymbols t work) (hwork : work.OpsWellFormed) (h : Done work final done)
    (hfold : order.foldlM (elaborateNext t) work = .ok final) :
    ∀ sym decl, (sym ∈ done ∨ sym ∈ order) → final.ops[sym]? = some decl →
      WellSortedDecl final.operators decl := by
  induction hordered generalizing work with
  | @nil done =>
    intro sym decl hsym hdecl
    have hsym := hsym.resolve_right List.not_mem_nil
    exact (h.sorted sym hsym decl hdecl).mono fun s decl hs => (operatorsAmong_eq_some_iff.mp hs).2
  | @cons done f fs new needed rest ih =>
    rw [List.foldlM_cons] at hfold
    obtain ⟨next, hnext, hfold⟩ := bind_eq_ok_iff.mp hfold
    have hkept : next.ops[f]? = final.ops[f]? :=
      (foldlM_elaborateNext_getElem? hfold (rest.notMem List.mem_cons_self)).symm
    have hdone := h.next hsame hclosed hdeclared hwork needed hnext hkept new
    intro sym decl hsym
    refine ih (hsame.next ht hnext) (elaborateNext_ops hwork hnext) hdone hfold sym decl ?_
    simpa only [List.mem_cons, or_assoc, or_left_comm] using hsym

/-! ## Elaborated theories -/

theorem elaborated_of_elaborate (h : t.elaborate = .ok t') : t'.elaborated = true := by
  cases hraw : t.elaborated with
  | true =>
    cases (elaborate_of_elaborated hraw).symm.trans h
    exact hraw
  | false =>
    obtain ⟨order, work, sorts, rules, -, -, -, -, rfl⟩ := elaborate_eq_ok hraw h
    rfl

/-- Entries with the keys of a map, one by one, have its keys. -/
theorem map_fst_eq_keys {α β : Type} {m : Std.ExtTreeMap String α} {l : List (String × β)}
    (h : List.Forall₂ (fun d d' => d.1 = d'.1) m.toList l) : l.map Prod.fst = m.keys := by
  have hkeys : m.toList.map Prod.fst = l.map Prod.fst := by
    refine List.forall₂_eq_eq_eq ▸ ?_
    rwa [List.forall₂_map_left_iff, List.forall₂_map_right_iff]
  rw [← hkeys, Std.ExtTreeMap.map_fst_toList_eq_keys]

theorem mem_sorts_of_elaborate {sorts : List (String × SortDecl)}
    (h : List.Forall₂ (fun d d' => d.1 = d'.1 ∧ work.elaborateSort d.2 = .ok d'.2)
      t.sorts.toList sorts)
    {sym : String} : sym ∈ (Std.ExtTreeMap.ofList sorts : Std.ExtTreeMap String SortDecl) ↔
      sym ∈ t.sorts := by
  rw [Std.ExtTreeMap.mem_ofList, map_fst_eq_keys (h.imp fun _ _ hd => hd.1),
    List.contains_iff_mem, Std.ExtTreeMap.mem_keys]

/-- A theory that the library makes declares consistently. -/
theorem Made.consistent (h : t.Made) : t.Consistent := by
  induction h with
  | declared _ declare => exact (consistent_of_declare declare).1
  | @elaborated t t' _ elaborate ih =>
    cases hraw : t.elaborated with
    | true =>
      cases (elaborate_of_elaborated hraw).symm.trans elaborate
      exact ih
    | false =>
      obtain ⟨order, work, sorts, rules, -, hwork, hsorts, -, rfl⟩ := elaborate_eq_ok hraw elaborate
      have hsame : SameSymbols t work := SameSymbols.fold ih ⟨rfl, fun _ => Iff.rfl, ih⟩ hwork
      intro sym decl hdecl
      obtain ⟨hnot, hsort⟩ := hsame.consistent sym decl hdecl
      refine ⟨fun hmem => hnot ?_, hsort⟩
      rw [hsame.sorts]
      exact (mem_sorts_of_elaborate hsorts).mp hmem

/-- An elaborated theory is the elaboration of one that is not. -/
theorem Made.exists_raw (h : t.Made) (helaborate : t.elaborated = true) :
    ∃ raw : Theory, raw.Made ∧ raw.elaborated = false ∧ raw.elaborate = .ok t := by
  induction h with
  | declared _ declare =>
    rw [(consistent_of_declare declare).2] at helaborate
    cases helaborate
  | @elaborated t t' made elaborate ih =>
    cases hraw : t.elaborated with
    | true =>
      cases (elaborate_of_elaborated hraw).symm.trans elaborate
      exact ih helaborate
    | false => exact ⟨t, made, hraw, elaborate⟩

/-- The sides of all rules are well sorted. -/
def WellSortedRules (t : Theory) : Prop :=
  ∀ r ∈ t.rules, WellSorted t.operators r.left ∧ WellSorted t.operators r.right

/-- The elaboration of a raw theory, if it has closed declarations. -/
theorem settled_of_elaborate (ht : t.Made) (hraw : t.elaborated = false) (h : t.elaborate = .ok t')
    (hclosed : t'.Closed) : t'.Settled ∧ t'.WellSortedRules := by
  obtain ⟨order, work, sorts, rules, horder, hwork, -, hrules, rfl⟩ := elaborate_eq_ok hraw h
  obtain ⟨hordered, hall⟩ := ordered_operatorOrder horder
  have hclosed : work.Closed := hclosed
  have hsame : SameSymbols t work :=
    SameSymbols.fold ht.consistent ⟨rfl, fun _ => Iff.rfl, ht.consistent⟩ hwork
  have hwf : work.OpsWellFormed := foldlM_elaborateNext_ops ht.sound.ops hwork
  have hdeclared : WellDeclared work.operators := fun s decl hdecl =>
    ⟨(hwf s decl hdecl).1, (hwf s decl hdecl).2, (hsame.consistent s decl hdecl).2⟩
  have hsorted := wellSorted_of_ordered ht.consistent hclosed hdeclared hordered
    ⟨rfl, fun _ => Iff.rfl, ht.consistent⟩ ht.sound.ops
    ⟨fun _ hsym => absurd hsym List.not_mem_nil, fun _ hsym => absurd hsym List.not_mem_nil⟩ hwork
  have hsettled : SettledIn work.operators work := by
    refine ⟨fun _ _ hdecl => hdecl, hclosed, fun s decl hdecl => ?_⟩
    have hmem : s ∈ work.ops := mem_ops_iff.mpr ⟨decl, hdecl⟩
    exact hsorted s decl (.inr (hall s ((hsame.ops s).mp hmem))) hdecl decl.sort List.mem_cons_self
  refine ⟨⟨hdeclared, hsettled.declared, hsettled.closed, hsettled.sorted⟩, fun r hr => ?_⟩
  obtain ⟨left, right, hleft, hright⟩ := exists_sides_of_mem hrules hr
  exact ⟨hsettled.elaborateExpr hdeclared hwf (fun _ _ _ hdecl => hdecl) hleft,
    hsettled.elaborateExpr hdeclared hwf (fun _ _ _ hdecl => hdecl) hright⟩

/-- **An elaborated theory with closed declarations is settled, and its rules are well sorted.** -/
theorem Made.settled (h : t.Made) (helaborate : t.elaborated = true) (hclosed : t.Closed) :
    t.Settled ∧ t.WellSortedRules := by
  obtain ⟨raw, made, hraw, elaborate⟩ := h.exists_raw helaborate
  exact settled_of_elaborate made hraw elaborate hclosed

end Theory

end SortedRewriting
