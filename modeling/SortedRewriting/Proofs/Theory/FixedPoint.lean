import SortedRewriting.Proofs.Theory.Erasure

/-!
# Elaborated theories are fixed points

Elaboration goes through the operators in an order, and elaborates each over a table in which later
operators are still raw. It looks up only operators that the patterns mention, and those are done.

* `Theory.AgreeOn.elaborateExpr`: theories with the same declarations for the symbols of an
  expression elaborate it alike.
* `Theory.settles_of_fold`: what is elaborated in order is the elaboration over the final table.
* `Theory.foldlM_of_settles`: every other order leads to the same table.
* **`Theory.Made.elaborate_fixedPoint`**: every pattern of an elaborated theory is the elaboration
  of the raw one over this theory, and stays as it is when it is elaborated again.
-/

namespace SortedRewriting

namespace Theory

variable {t t' work work' final : Theory} {e : Expr} {s f : String} {as : List Expr}
  {decl : OpDecl} {done order : List String}

/-! ## What elaboration looks up -/

/-- Two theories have the same declarations for the symbols of an expression. -/
def AgreeOn (t t' : Theory) (e : Expr) : Prop :=
  ∀ u : Expr, u.IsSubterm e → t.ops[u.sym]? = t'.ops[u.sym]?

theorem infer_congr (h : t.ops[s]? = t'.ops[s]?) (as : List Expr) :
    t.infer s as = t'.infer s as := by
  unfold infer
  rw [h]

/-- **Elaboration looks up only what an expression mentions.** -/
theorem AgreeOn.elaborateExpr (h : AgreeOn t t' e) : t.elaborateExpr e = t'.elaborateExpr e := by
  induction e with
  | node k s as ih =>
    have hall : ∀ as₀, (∀ a ∈ as₀, a ∈ as) → t.elaborateAll as₀ = t'.elaborateAll as₀ := by
      refine fun as₀ hsub => elaborateAll_congr (List.forall₂_same.mpr fun a ha => ?_)
      exact ih a (hsub a ha) fun u hu => h u (hu.trans (Expr.isSubterm_arg (hsub a ha)))
    by_cases hk : k = .app
    · subst hk
      have hinfer : t.infer s = t'.infer s := funext (infer_congr (h (.node .app s as) (.refl _)))
      rw [elaborateExpr_app, elaborateExpr_app, hinfer, hall _ fun _ => Expr.mem_of_mem_splitSort]
    · rw [elaborateExpr_node hk, elaborateExpr_node hk, hall as fun _ ha => ha]

theorem elaborateAll_agree (h : ∀ a ∈ as, AgreeOn t t' a) :
    t.elaborateAll as = t'.elaborateAll as :=
  elaborateAll_congr (List.forall₂_same.mpr fun a ha => (h a ha).elaborateExpr)

theorem elaborateOp_agree (h : ∀ e ∈ decl.sort :: decl.args, AgreeOn t t' e) :
    t.elaborateOp decl = t'.elaborateOp decl := by
  obtain ⟨hsort, hargs⟩ := List.forall_mem_cons.mp h
  rw [elaborateOp, elaborateOp, hsort.elaborateExpr, elaborateAll_agree hargs]

/-! ## Operators in order -/

/-- Between a raw table and the final one: the operators that are done are the final ones, and the
others are raw. -/
structure Between (t final : Theory) (done : List String) (work : Theory) : Prop where
  kept : ∀ g ∈ done, work.ops[g]? = final.ops[g]?
  raw : ∀ g, g ∉ done → work.ops[g]? = t.ops[g]?

theorem between_nil (t final : Theory) : Between t final [] t :=
  ⟨fun _ hg => absurd hg List.not_mem_nil, fun _ _ => rfl⟩

/-- One operator more is done. -/
theorem Between.next (h : Between t final done work) (hnext : elaborateNext t work f = .ok work')
    (hf : work'.ops[f]? = final.ops[f]?) : Between t final (f :: done) work' := by
  constructor
  · intro g hg
    by_cases hgf : g = f
    · rw [hgf, hf]
    · rw [elaborateNext_getElem? hnext hgf, h.kept g ((List.mem_cons.mp hg).resolve_left hgf)]
  · intro g hg
    obtain ⟨hgf, hg⟩ := List.ne_and_not_mem_of_not_mem_cons hg
    rw [elaborateNext_getElem? hnext hgf, h.raw g hg]

/-- The tables agree on what is declared in neither, and on what is done. -/
theorem Between.getElem?_eq (h : Between t final done work)
    (hsame : ∀ g, g ∈ final.ops ↔ g ∈ t.ops) {g : String} (hg : g ∈ t.ops → g ∈ done) :
    work.ops[g]? = final.ops[g]? := by
  by_cases hdone : g ∈ done
  · exact h.kept g hdone
  · have hop : g ∉ t.ops := fun hop => hdone (hg hop)
    have hfinal : g ∉ final.ops := fun hmem => hop ((hsame g).mp hmem)
    rw [h.raw g hdone, Std.ExtTreeMap.getElem?_eq_none hop, Std.ExtTreeMap.getElem?_eq_none hfinal]

/-- An operator that needs only what is done is elaborated as over the final table. -/
theorem Between.elaborateOp (h : Between t final done work)
    (hsame : ∀ g, g ∈ final.ops ↔ g ∈ t.ops) (hdecl : t.ops[f]? = some decl)
    (hneeded : ∀ g, t.DependsOn f g → g ∈ done) :
    work.elaborateOp decl = final.elaborateOp decl := by
  refine elaborateOp_agree fun e he u hu => h.getElem?_eq hsame fun hop => ?_
  exact hneeded u.sym ⟨decl, hdecl, mem_dependencies_iff.mpr ⟨⟨e, he, u, hu, rfl⟩, hop⟩⟩

/-- The final table has the elaboration of a declaration over this table. -/
def Settles (t final : Theory) (f : String) : Prop :=
  ∀ decl, t.ops[f]? = some decl → ∃ decl', final.elaborateOp decl = .ok decl' ∧
    final.ops[f]? = some decl'

/-- **What is elaborated in order is the elaboration over the final table.** -/
theorem settles_of_fold (hsame : ∀ g, g ∈ final.ops ↔ g ∈ t.ops)
    (hordered : Ordered t.DependsOn done order) (h : Between t final done work)
    (hfold : order.foldlM (elaborateNext t) work = .ok final) : ∀ f ∈ order, Settles t final f := by
  induction hordered generalizing work with
  | nil => exact fun f hf => absurd hf List.not_mem_nil
  | @cons done f order new needed rest ih =>
    rw [List.foldlM_cons] at hfold
    obtain ⟨work', hnext, hfold⟩ := bind_eq_ok_iff.mp hfold
    -- what is done is never touched again
    have hkept : work'.ops[f]? = final.ops[f]? :=
      (foldlM_elaborateNext_getElem? hfold (rest.notMem List.mem_cons_self)).symm
    refine List.forall_mem_cons.mpr ⟨fun decl hdecl => ?_, ih (h.next hnext hkept) hfold⟩
    obtain ⟨decl', hop, rfl⟩ := elaborateNext_eq_ok hdecl hnext
    refine ⟨decl', (h.elaborateOp hsame hdecl needed).symm.trans hop, ?_⟩
    rw [← hkept, Std.ExtTreeMap.getElem?_insert_self]

/-- The next operator in an order is elaborated to the final one. -/
theorem Between.exists_next (h : Between t final done work)
    (hsame : ∀ g, g ∈ final.ops ↔ g ∈ t.ops) (hsettles : Settles t final f)
    (hneeded : ∀ g, t.DependsOn f g → g ∈ done) :
    ∃ ops, elaborateNext t work f = .ok { work with ops } ∧ ops[f]? = final.ops[f]? := by
  unfold elaborateNext
  cases hdecl : t.ops[f]? with
  | none =>
    refine ⟨work.ops, rfl, h.getElem?_eq hsame fun hop => ?_⟩
    obtain ⟨decl, hdecl'⟩ := mem_ops_iff.mp hop
    exact absurd (hdecl.symm.trans hdecl') nofun
  | some decl =>
    obtain ⟨decl', hop, hfinal⟩ := hsettles decl hdecl
    rw [← h.elaborateOp hsame hdecl hneeded] at hop
    refine ⟨work.ops.insert f decl', bind_eq_ok_iff.mpr ⟨decl', hop, rfl⟩, ?_⟩
    rw [hfinal, Std.ExtTreeMap.getElem?_insert_self]

/-- **Every order leads to the final table.** -/
theorem foldlM_of_settles (hsame : ∀ g, g ∈ final.ops ↔ g ∈ t.ops)
    (hsettles : ∀ f, Settles t final f) (hordered : Ordered t.DependsOn done order)
    (h : Between t final done work) (hall : ∀ g ∈ t.ops, g ∈ done ∨ g ∈ order) :
    order.foldlM (elaborateNext t) work = .ok { work with ops := final.ops } := by
  induction hordered generalizing work with
  | nil =>
    have hops : work.ops = final.ops := Std.ExtTreeMap.ext_getElem? fun g =>
      h.getElem?_eq hsame fun hop => (hall g hop).resolve_right List.not_mem_nil
    rw [← hops]
    rfl
  | @cons done f order new needed rest ih =>
    obtain ⟨ops, hnext, hf⟩ := h.exists_next hsame (hsettles f) needed
    rw [List.foldlM_cons, hnext]
    refine ih (h.next hnext hf) fun g hop => ?_
    simpa only [List.mem_cons, or_assoc, or_left_comm] using hall g hop

/-! ## The patterns of an elaborated theory -/

/-- The same symbols are declared, and each declaration and rule of the second theory is the
elaboration, over this theory, of the one that the first has in its place. -/
structure ElaboratedOver (t t' : Theory) : Prop where
  sorts : ∀ sym : String,
    Option.Rel (fun d d' => t'.elaborateSort d = .ok d') t.sorts[sym]? t'.sorts[sym]?
  ops : ∀ sym : String,
    Option.Rel (fun d d' => t'.elaborateOp d = .ok d') t.ops[sym]? t'.ops[sym]?
  rules : List.Forall₂ (fun r r' => t'.elaborateRule r = .ok r') t.rules t'.rules

theorem elaborateSort_agree {d : SortDecl} (h : ∀ a ∈ d.args, AgreeOn t t' a) :
    t.elaborateSort d = t'.elaborateSort d := by
  rw [elaborateSort, elaborateSort, elaborateAll_agree h]

theorem elaborateRule_agree {r : Rule} (hleft : AgreeOn t t' r.left)
    (hright : AgreeOn t t' r.right) : t.elaborateRule r = t'.elaborateRule r := by
  rw [elaborateRule, elaborateRule, hleft.elaborateExpr, hright.elaborateExpr]

/-- Entries that are related one by one are related under each key. -/
theorem rel_ofList {α β : Type} {R : α → β → Prop} {m : Std.ExtTreeMap String α}
    {l : List (String × β)}
    (h : List.Forall₂ (fun d d' => d.1 = d'.1 ∧ R d.2 d'.2) m.toList l) (key : String) :
    Option.Rel R m[key]? (Std.ExtTreeMap.ofList l : Std.ExtTreeMap String β)[key]? := by
  have hkeys := map_fst_eq_keys (h.imp fun _ _ hd => hd.1)
  cases hm : m[key]? with
  | none =>
    have hkey : (l.map Prod.fst).contains key = false := by
      simpa [hkeys] using hm
    rw [Std.ExtTreeMap.getElem?_ofList_of_contains_eq_false hkey]
    exact .none
  | some a =>
    obtain ⟨⟨key', b⟩, hb, hkey, hab⟩ :=
      exists_of_mem_left h (Std.ExtTreeMap.mem_toList_iff_getElem?_eq_some.mpr hm)
    cases hkey
    have hdistinct : l.Pairwise fun d d' => ¬ compare d.1 d'.1 = .eq := by
      rw [← List.pairwise_map (f := Prod.fst) (R := fun a b => ¬ compare a b = .eq), hkeys]
      exact Std.ExtTreeMap.distinct_keys
    rw [Std.ExtTreeMap.getElem?_ofList_of_mem Std.ReflCmp.compare_self hdistinct hb]
    exact .some hab

/-- The patterns of an elaborated theory are elaborated over this theory. -/
theorem elaboratedOver_of_elaborate (ht : t.Made) (hraw : t.elaborated = false)
    (h : t.elaborate = .ok t') : ElaboratedOver t t' := by
  obtain ⟨order, work, sorts, rules, horder, hwork, hsorts, hrules, rfl⟩ := elaborate_eq_ok hraw h
  obtain ⟨hordered, hall⟩ := ordered_operatorOrder horder
  have hsame : SameSymbols t work :=
    SameSymbols.fold ht.consistent ⟨rfl, fun _ => Iff.rfl, ht.consistent⟩ hwork
  have hsettles := settles_of_fold hsame.ops hordered (between_nil t work) hwork
  -- the operators are those of the last table
  let T : Theory := { work with sorts := .ofList sorts, rules, elaborated := true }
  have hagree : ∀ e, AgreeOn T work e := fun _ _ _ => rfl
  have hsorts' : ∀ sym : String,
      Option.Rel (fun d d' => T.elaborateSort d = .ok d') t.sorts[sym]? T.sorts[sym]? := by
    refine rel_ofList (hsorts.imp fun d d' hd => ⟨hd.1, ?_⟩)
    exact (elaborateSort_agree fun a _ => hagree a).trans hd.2
  have hops : ∀ sym : String,
      Option.Rel (fun d d' => T.elaborateOp d = .ok d') t.ops[sym]? T.ops[sym]? := by
    intro sym
    cases hdecl : t.ops[sym]? with
    | none =>
      have hop : sym ∉ t.ops := fun hop => by
        rw [← Std.ExtTreeMap.isSome_getElem?_iff_mem, hdecl] at hop
        cases hop
      rw [Std.ExtTreeMap.getElem?_eq_none fun hmem => hop ((hsame.ops sym).mp hmem)]
      exact .none
    | some decl =>
      have hop : sym ∈ t.ops := mem_ops_iff.mpr ⟨decl, hdecl⟩
      obtain ⟨decl', helaborate, hfinal⟩ := hsettles sym (hall sym hop) decl hdecl
      rw [show T.ops[sym]? = some decl' from hfinal]
      exact .some ((elaborateOp_agree fun e _ => hagree e).trans helaborate)
  refine ⟨hsorts', hops, hrules.imp fun r r' hr => ?_⟩
  exact (elaborateRule_agree (hagree _) (hagree _)).trans hr

/-! ## What is elaborated stays as it is -/

theorem exists_of_rel_some {α β : Type} {R : α → β → Prop} {x : Option α} {b : β}
    (h : Option.Rel R x (some b)) : ∃ a, x = some a ∧ R a b := by
  cases h with
  | some hab => exact ⟨_, rfl, hab⟩

theorem exists_of_some_rel {α β : Type} {R : α → β → Prop} {a : α} {y : Option β}
    (h : Option.Rel R (some a) y) : ∃ b, y = some b ∧ R a b := by
  cases h with
  | some hab => exact ⟨_, rfl, hab⟩

/-- The patterns are those of the sort constructors, the operators and the rules. -/
theorem mem_patterns_iff : e ∈ t.patterns ↔
    (∃ (sym : String) (d : SortDecl), t.sorts[sym]? = some d ∧ e ∈ d.args) ∨
      (∃ (sym : String) (decl : OpDecl), t.ops[sym]? = some decl ∧ e ∈ decl.sort :: decl.args) ∨
      ∃ r ∈ t.rules, e ∈ [r.left, r.right] := by
  simp only [patterns, List.mem_append, List.mem_flatMap, Prod.exists,
    Std.ExtTreeMap.mem_toList_iff_getElem?_eq_some, or_assoc]

/-- Elaborating the patterns of an elaborated theory over this theory changes nothing. -/
theorem ElaboratedOver.fixed (h : ElaboratedOver t t') (ht : t'.Consistent) :
    ∀ e ∈ t'.patterns, t'.Fixed e := by
  have hfixed : ∀ as as', t'.elaborateAll as = .ok as' → ∀ e ∈ as', t'.Fixed e := by
    intro as as' has e he
    obtain ⟨a, -, hae⟩ := exists_of_mem_left (elaborateAll_eq_ok_iff.mp has).flip he
    exact ht.elaborateExpr_idempotent hae
  intro e he
  rcases mem_patterns_iff.mp he with ⟨sym, d', hd', he⟩ | ⟨sym, decl', hdecl', he⟩ | ⟨r', hr', he⟩
  · obtain ⟨d, -, hd⟩ := exists_of_rel_some (hd' ▸ h.sorts sym)
    obtain ⟨args, hargs, rfl⟩ := elaborateSort_eq_ok_iff.mp hd
    exact hfixed d.args args hargs e he
  · obtain ⟨decl, -, hdecl⟩ := exists_of_rel_some (hdecl' ▸ h.ops sym)
    obtain ⟨sort, args, hsort, hargs, rfl⟩ := elaborateOp_eq_ok_iff.mp hdecl
    rcases List.mem_cons.mp he with rfl | he
    · exact ht.elaborateExpr_idempotent hsort
    · exact hfixed decl.args args hargs e he
  · obtain ⟨r, -, hr⟩ := exists_of_mem_left h.rules.flip hr'
    obtain ⟨left, right, hleft, hright, rfl⟩ := elaborateRule_eq_ok_iff.mp hr
    rcases List.mem_pair.mp he with rfl | rfl
    · exact ht.elaborateExpr_idempotent hleft
    · exact ht.elaborateExpr_idempotent hright

theorem rel_self {α : Type} {R : α → α → Prop} {x : Option α} (h : ∀ a, x = some a → R a a) :
    Option.Rel R x x := by
  cases x with
  | none => exact .none
  | some a => exact .some (h a rfl)

/-- A theory whose patterns stay as they are is elaborated over itself. -/
theorem elaboratedOver_self (h : ∀ e ∈ t.patterns, t.Fixed e) : ElaboratedOver t t := by
  have hall : ∀ as, (∀ a ∈ as, a ∈ t.patterns) → t.elaborateAll as = .ok as := fun as has =>
    elaborateAll_eq_ok_iff.mpr (List.forall₂_same.mpr fun a ha => h a (has a ha))
  constructor
  · refine fun sym => rel_self fun d hd => elaborateSort_eq_ok_iff.mpr ⟨d.args, hall _ ?_, rfl⟩
    exact fun a ha => mem_patterns_iff.mpr (.inl ⟨sym, d, hd, ha⟩)
  · intro sym
    refine rel_self fun decl hdecl => ?_
    have hmem : ∀ e ∈ decl.sort :: decl.args, e ∈ t.patterns := fun e he =>
      mem_patterns_iff.mpr (.inr (.inl ⟨sym, decl, hdecl, he⟩))
    obtain ⟨hsort, hargs⟩ := List.forall_mem_cons.mp hmem
    exact elaborateOp_eq_ok_iff.mpr ⟨decl.sort, decl.args, h _ hsort, hall _ hargs, rfl⟩
  · refine List.forall₂_same.mpr fun r hr => ?_
    have hmem : ∀ e ∈ [r.left, r.right], e ∈ t.patterns := fun e he =>
      mem_patterns_iff.mpr (.inr (.inr ⟨r, hr, he⟩))
    exact elaborateRule_eq_ok_iff.mpr
      ⟨r.left, r.right, h _ (hmem _ (by simp)), h _ (hmem _ (by simp)), rfl⟩

/-- **The patterns of an elaborated theory stay as they are.** -/
theorem Made.fixed_patterns (ht : t.Made) (helaborate : t.elaborated = true) :
    ∀ e ∈ t.patterns, t.Fixed e := by
  obtain ⟨raw, made, hraw, elaborate⟩ := ht.exists_raw helaborate
  exact (elaboratedOver_of_elaborate made hraw elaborate).fixed ht.consistent

/-- Every elaboration is over the elaborated theory. -/
theorem Made.elaboratedOver (ht : t.Made) (h : t.elaborate = .ok t') : ElaboratedOver t t' := by
  cases hraw : t.elaborated with
  | true =>
    cases (elaborate_of_elaborated hraw).symm.trans h
    exact elaboratedOver_self (ht.fixed_patterns hraw)
  | false => exact elaboratedOver_of_elaborate ht hraw h

/-! ## What elaboration does not change -/

/-- The same symbols are declared, with the same print patterns, the rules have the same names, and
the largest number of arguments is the same. -/
structure SameSignature (t t' : Theory) : Prop where
  sorts : ∀ sym : String, t'.sorts[sym]?.map (·.pattern) = t.sorts[sym]?.map (·.pattern)
  ops : ∀ sym : String, t'.ops[sym]?.map (·.pattern) = t.ops[sym]?.map (·.pattern)
  rules : t'.rules.map (·.name) = t.rules.map (·.name)
  maxArity : t'.maxArity = t.maxArity

theorem map_eq_of_rel {α β γ : Type} {R : α → β → Prop} {p : α → γ} {q : β → γ} {x : Option α}
    {y : Option β} (h : Option.Rel R x y) (hpq : ∀ a b, R a b → q b = p a) :
    y.map q = x.map p := by
  cases h with
  | none => rfl
  | some hab => exact congrArg some (hpq _ _ hab)

theorem toList_eq_of_rel {α β γ : Type} {R : α → β → Prop} {p : α → γ} {q : β → γ}
    {m : Std.ExtTreeMap String α} {m' : Std.ExtTreeMap String β}
    (h : ∀ key : String, Option.Rel R m[key]? m'[key]?) (hpq : ∀ a b, R a b → q b = p a) :
    m'.toList.map (fun d => q d.2) = m.toList.map fun d => p d.2 := by
  have hmap : m'.map (fun _ b => q b) = m.map fun _ a => p a := by
    refine Std.ExtTreeMap.ext_getElem? fun key => ?_
    rw [Std.ExtTreeMap.getElem?_map, Std.ExtTreeMap.getElem?_map]
    exact map_eq_of_rel (h key) hpq
  simpa [Std.ExtTreeMap.toList_map, Function.comp_def] using
    congrArg (fun m => m.toList.map Prod.snd) hmap

theorem ElaboratedOver.sameSignature (h : ElaboratedOver t t') : SameSignature t t' := by
  have hsort : ∀ d d', t'.elaborateSort d = .ok d' →
      d'.pattern = d.pattern ∧ d'.args.length = d.args.length := by
    intro d d' hd
    obtain ⟨args, hargs, rfl⟩ := elaborateSort_eq_ok_iff.mp hd
    exact ⟨rfl, (elaborateAll_eq_ok_iff.mp hargs).length_eq.symm⟩
  have hop : ∀ decl decl', t'.elaborateOp decl = .ok decl' →
      decl'.pattern = decl.pattern ∧ decl'.args.length = decl.args.length := by
    intro decl decl' hdecl
    obtain ⟨sort, args, -, hargs, rfl⟩ := elaborateOp_eq_ok_iff.mp hdecl
    exact ⟨rfl, (elaborateAll_eq_ok_iff.mp hargs).length_eq.symm⟩
  refine ⟨fun sym => map_eq_of_rel (h.sorts sym) fun d d' hd => (hsort d d' hd).1,
    fun sym => map_eq_of_rel (h.ops sym) fun decl decl' hd => (hop decl decl' hd).1, ?_, ?_⟩
  · refine (List.forall₂_eq_eq_eq ▸ ?_ : t.rules.map (·.name) = t'.rules.map (·.name)).symm
    rw [List.forall₂_map_left_iff, List.forall₂_map_right_iff]
    refine h.rules.imp fun r r' hr => ?_
    obtain ⟨left, right, -, -, rfl⟩ := elaborateRule_eq_ok_iff.mp hr
    rfl
  · unfold maxArity
    rw [toList_eq_of_rel h.sorts fun d d' hd => (hsort d d' hd).2,
      toList_eq_of_rel h.ops fun decl decl' hd => (hop decl decl' hd).2]

/-! ## The fixed point -/

theorem ElaboratedOver.mem_ops_iff (h : ElaboratedOver t t') : f ∈ t'.ops ↔ f ∈ t.ops := by
  have hsome := congrArg Option.isSome (h.sameSignature.ops f)
  rw [Option.isSome_map, Option.isSome_map] at hsome
  rw [← Std.ExtTreeMap.isSome_getElem?_iff_mem, ← Std.ExtTreeMap.isSome_getElem?_iff_mem, hsome]

theorem ElaboratedOver.settles (h : ElaboratedOver t t') (f : String) : Settles t t' f := by
  intro decl hdecl
  obtain ⟨decl', hdecl', hop⟩ := exists_of_some_rel (hdecl ▸ h.ops f)
  exact ⟨decl', hop, hdecl'⟩

/-- **Elaboration reaches a fixed point, in any order of the operators.** Every pattern of the
elaborated theory is the elaboration over this theory of the pattern it was made from, and stays as
it is when it is elaborated again. All orders in which operators stand behind those that they
mention lead to the same operators. -/
theorem Made.elaborate_fixedPoint (ht : t.Made) (h : t.elaborate = .ok t') :
    ElaboratedOver t t' ∧ (∀ e ∈ t'.patterns, t'.elaborateExpr e = .ok e) ∧ SameSignature t t' ∧
    ∀ order, Ordered t.DependsOn [] order → (∀ f ∈ t.ops, f ∈ order) →
      order.foldlM (elaborateNext t) t = .ok { t with ops := t'.ops } := by
  have hover := ht.elaboratedOver h
  refine ⟨hover, hover.fixed (ht.elaborated h).consistent, hover.sameSignature, ?_⟩
  intro order hordered hall
  exact foldlM_of_settles (fun _ => hover.mem_ops_iff) hover.settles hordered (between_nil t t')
    fun f hf => .inr (hall f hf)

end Theory

open Arrows in
/-- A loop at each image. By symbol it comes before the operator for images, which it mentions, so
it is elaborated after that one. Its sort is the one that is inferred over the elaborated theory,
and nothing changes when all is elaborated in the order of operators once more. -/
theorem Theory.Made.elaborate_fixedPoint_loop : ∃ t T : Theory, t.Made ∧ t.elaborate = .ok T ∧
    let image₀ : Expr := .node .app "F" [objectVar "x"]
    let ends := arrows (image (objectVar "x")) (image (objectVar "x"))
    T.ops["E"]?.map (·.sort) = some ends ∧ T.elaborateExpr (arrows image₀ image₀) = .ok ends ∧
    T.elaborateExpr ends = .ok ends ∧
    ["F", "E"].foldlM (elaborateNext t) t = .ok { t with ops := T.ops } ∧ T.maxArity = 2 := by
  obtain ⟨t, ht, h⟩ := Theory.exists_made "loops"
    [("Ob", ⟨"Ob", [], ""⟩), ("Hom", ⟨"Hom", [objectVar "x", objectVar "y"], ""⟩)]
    [("E", ⟨"E", arrows (.node .app "F" [objectVar "x"]) (.node .app "F" [objectVar "x"]),
        [objectVar "x"], ""⟩),
      ("F", ⟨"F", object, [objectVar "x"], ""⟩)]
    [] (P := fun t => decide (t.operatorOrder = .ok ["F", "E"] ∧ t.maxArity = 2 ∧
      t.ops["E"]?.map (·.sort) =
        some (arrows (.node .app "F" [objectVar "x"]) (.node .app "F" [objectVar "x"]))) &&
      t.elaborate.toOption.any fun T => decide (T.ops["E"]?.map (·.sort) =
        some (arrows (image (objectVar "x")) (image (objectVar "x"))))) (by decide +kernel)
  obtain ⟨h, helaborate⟩ := Bool.and_eq_true_iff.mp h
  obtain ⟨horder, harity, hraw⟩ := of_decide_eq_true h
  obtain ⟨T, hT, hsort⟩ := exists_ok_of_any helaborate
  have hsort := of_decide_eq_true hsort
  obtain ⟨hover, hfixed, hsame, hfold⟩ := Theory.Made.elaborate_fixedPoint ht hT
  obtain ⟨decl', hdecl', hends⟩ := Option.map_eq_some_iff.mp hsort
  obtain ⟨decl, hdecl, hop⟩ := Theory.exists_of_rel_some (hdecl' ▸ hover.ops "E")
  obtain ⟨sort, args, helaborate, -, rfl⟩ := Theory.elaborateOp_eq_ok_iff.mp hop
  rw [hdecl, Option.map_some, Option.some.injEq] at hraw
  obtain ⟨hordered, hall⟩ := Theory.ordered_operatorOrder horder
  refine ⟨t, T, ht, hT, hsort, ?_, hfixed _ ?_, hfold _ hordered hall, hsame.maxArity.trans harity⟩
  · rw [← hraw, helaborate]
    exact congrArg Except.ok hends
  · exact Theory.mem_patterns_iff.mpr (.inr (.inl ⟨"E", _, hdecl', by simp [← hends]⟩))

end SortedRewriting
