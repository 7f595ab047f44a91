import SortedRewriting.Expr.Basic

/-!
# Subterms and variables

`Expr.IsSubterm` says that one expression stands at some position of another.

* `Expr.isSubterm_node_iff`: a subterm is the expression itself or stands below a child.
* `Expr.mem_varNames_iff`: the variable names are those of the variables among the subterms.
-/

namespace SortedRewriting.Expr

/-! ## Subterms -/

@[simp] theorem subterm?_nil (e : Expr) : e.subterm? [] = some e := rfl

theorem subterm?_cons_iff {e t : Expr} {i : Nat} {p : Position} :
    e.subterm? (i :: p) = some t ↔ ∃ a, e.args[i]? = some a ∧ a.subterm? p = some t := by
  rw [subterm?]
  cases e.args[i]? <;> simp

theorem subterm?_append {e t u : Expr} {p q : Position} (ht : e.subterm? p = some t)
    (hu : t.subterm? q = some u) : e.subterm? (p ++ q) = some u := by
  induction p generalizing e with
  | nil =>
    cases ht
    exact hu
  | cons i p ih =>
    obtain ⟨a, ha, ht⟩ := subterm?_cons_iff.mp ht
    exact subterm?_cons_iff.mpr ⟨a, ha, ih ht⟩

/-- One expression stands at some position of another. -/
def IsSubterm (t e : Expr) : Prop := ∃ p, e.subterm? p = some t

theorem IsSubterm.refl (e : Expr) : e.IsSubterm e := ⟨[], rfl⟩

theorem IsSubterm.trans {t u e : Expr} (h : u.IsSubterm t) (h' : t.IsSubterm e) :
    u.IsSubterm e := by
  obtain ⟨p, hp⟩ := h
  obtain ⟨q, hq⟩ := h'
  exact ⟨q ++ p, subterm?_append hq hp⟩

theorem isSubterm_arg {k : Kind} {s : String} {as : List Expr} {a : Expr} (h : a ∈ as) :
    a.IsSubterm (.node k s as) := by
  obtain ⟨i, hi, rfl⟩ := List.getElem_of_mem h
  exact ⟨[i], subterm?_cons_iff.mpr ⟨as[i], List.getElem?_eq_getElem hi, rfl⟩⟩

/-- A child of a subterm is a subterm. -/
theorem IsSubterm.arg {k : Kind} {s : String} {as : List Expr} {a e : Expr} (h : a ∈ as)
    (h' : IsSubterm (.node k s as) e) : a.IsSubterm e := (isSubterm_arg h).trans h'

/-- A subterm is the expression itself or stands below a child. -/
theorem isSubterm_node_iff {t : Expr} {k : Kind} {s : String} {as : List Expr} :
    t.IsSubterm (.node k s as) ↔ t = .node k s as ∨ ∃ a ∈ as, t.IsSubterm a := by
  constructor
  · rintro ⟨_ | ⟨i, p⟩, hp⟩
    · cases hp
      exact .inl rfl
    · obtain ⟨a, ha, hp⟩ := subterm?_cons_iff.mp hp
      exact .inr ⟨a, List.mem_of_getElem? ha, p, hp⟩
  · rintro (rfl | ⟨a, ha, h⟩)
    · exact .refl _
    · exact h.trans (isSubterm_arg ha)

/-- All subterms of some expressions. -/
def subtermsOf (es : List Expr) : List Expr := es.flatMap fun e => e.subterms.map (·.2)

theorem mem_subtermsOf_iff {t : Expr} {es : List Expr} :
    t ∈ subtermsOf es ↔ ∃ e ∈ es, t.IsSubterm e := by
  simp only [subtermsOf, List.mem_flatMap, List.mem_map]
  constructor
  · rintro ⟨e, he, ⟨p, t⟩, h, rfl⟩
    exact ⟨e, he, p, mem_subterms_iff.mp h⟩
  · rintro ⟨e, he, p, hp⟩
    exact ⟨e, he, (p, t), mem_subterms_iff.mpr hp, rfl⟩

theorem forall_isSubterm_iff {e : Expr} {P : Expr → Prop} :
    (∀ t : Expr, t.IsSubterm e → P t) ↔ ∀ t ∈ subtermsOf [e], P t := by
  simp only [mem_subtermsOf_iff, List.mem_singleton, exists_eq_left]

/-- The symbols of an expression are those of its subterms. -/
theorem mem_symbols_iff {e : Expr} {sym : String} :
    sym ∈ e.symbols ↔ ∃ t : Expr, t.IsSubterm e ∧ t.sym = sym := by
  rw [symbols, Std.ExtTreeSet.mem_ofList, List.contains_iff_mem, List.mem_map]
  constructor
  · rintro ⟨⟨p, t⟩, ht, rfl⟩
    exact ⟨t, ⟨p, mem_subterms_iff.mp ht⟩, rfl⟩
  · rintro ⟨t, ⟨p, hp⟩, rfl⟩
    exact ⟨(p, t), mem_subterms_iff.mpr hp, rfl⟩

/-- The subterms of a well-formed expression are well formed. -/
theorem WellFormed.subterm {t e : Expr} (he : e.WellFormed) (h : t.IsSubterm e) :
    t.WellFormed := by
  obtain ⟨p, hp⟩ := h
  induction p generalizing e with
  | nil =>
    cases hp
    exact he
  | cons i p ih =>
    obtain ⟨k, s, as⟩ := e
    obtain ⟨a, ha, hp⟩ := subterm?_cons_iff.mp hp
    exact ih ((wellFormed_node_iff.mp he).2 a (List.mem_of_getElem? ha)) hp

/-- Well-formedness is a check of every subterm. -/
theorem wellFormed_iff_forall {e : Expr} :
    e.WellFormed ↔ ∀ t ∈ subtermsOf [e], (checkShape t.kind t.sym t.args).isOk = true := by
  have hok : ∀ (k : Kind) (s : String) (as : List Expr),
      (checkShape k s as).isOk = true ↔ checkShape k s as = .ok () := by
    intro k s as
    cases checkShape k s as with
    | error err => exact ⟨nofun, nofun⟩
    | ok u => exact ⟨fun _ => rfl, fun _ => rfl⟩
  simp only [hok, ← forall_isSubterm_iff]
  constructor
  · rintro he ⟨k, s, as⟩ ht
    exact (wellFormed_node_iff.mp (he.subterm ht)).1
  · intro h
    induction e with
    | node k s as ih =>
      exact .node (h _ (.refl _)) fun a ha => ih a ha fun t ht => h t (ht.trans (isSubterm_arg ha))

instance (e : Expr) : Decidable e.WellFormed := decidable_of_iff _ wellFormed_iff_forall.symm

/-- A well-formed variable has one child, its sort. -/
theorem WellFormed.var_args {s : String} {as : List Expr} (h : WellFormed (.node .var s as)) :
    ∃ sort, as = [sort] ∧ sort.isSort = true ∧ sort.WellFormed := by
  obtain ⟨hshape, hargs⟩ := wellFormed_node_iff.mp h
  unfold checkShape at hshape
  split at hshape
  · exact absurd hshape nofun
  · match as, hshape, hargs with
    | [sort], hshape, hargs =>
      refine ⟨sort, rfl, ?_, hargs sort List.mem_cons_self⟩
      by_cases hs : sort.isSort = true
      · exact hs
      · simp only [hs] at hshape
        exact absurd hshape (by simp)
    | [], hshape, _ => exact absurd hshape (by simp)
    | _ :: _ :: _, hshape, _ => exact absurd hshape (by simp)

/-- A well-formed sort has no sorts for children. -/
theorem WellFormed.sort_args {s : String} {as : List Expr} (h : WellFormed (.node .sort s as))
    {a : Expr} (ha : a ∈ as) : a.isSort = false := by
  obtain ⟨hshape, -⟩ := wellFormed_node_iff.mp h
  refine eq_false_of_ne_true fun hsort => ?_
  have hany : as.any isSort = true := List.any_eq_true.mpr ⟨a, ha, hsort⟩
  unfold checkShape at hshape
  simp only [hany, if_true] at hshape
  split at hshape <;> exact absurd hshape nofun

/-- No symbol of a well-formed expression is empty. -/
theorem WellFormed.sym_ne_empty {e : Expr} (h : e.WellFormed) : e.sym ≠ "" := by
  obtain ⟨k, s, as⟩ := e
  rintro rfl
  exact absurd (wellFormed_node_iff.mp h).1 nofun

/-- The shape rules want a name, but no particular one. -/
theorem checkShape_rename {k : Kind} {s s' : String} {as : List Expr} (hs' : s' ≠ "")
    (h : checkShape k s as = .ok ()) : checkShape k s' as = .ok () := by
  have hempty : ¬ s'.isEmpty = true := fun h => hs' (String.isEmpty_iff.mp h)
  unfold checkShape at h ⊢
  rw [if_neg hempty]
  split at h
  · exact absurd h nofun
  · split at h
    · split at h
      · rename_i hsort
        exact if_pos hsort
      · exact absurd h nofun
    · exact absurd h nofun
    · split at h
      · exact absurd h nofun
      · rfl
    · split at h
      · exact absurd h nofun
      · rename_i hany
        exact if_neg hany

/-- The sort of a well-formed expression is its first child, if that is a sort. -/
theorem WellFormed.sortOf?_eq_some_iff {e sort : Expr} (h : e.WellFormed) :
    e.sortOf? = some sort ↔ e.args.head? = some sort ∧ sort.isSort = true := by
  obtain ⟨k, s, as⟩ := e
  cases k with
  | var =>
    obtain ⟨sort', rfl, hsort, -⟩ := h.var_args
    constructor
    · rintro ⟨⟩
      exact ⟨rfl, hsort⟩
    · exact And.left
  | app =>
    cases as with
    | nil => simp [sortOf?, splitSort, args]
    | cons a as =>
      simp only [sortOf?, splitSort, args, List.head?_cons, Option.some.injEq]
      by_cases ha : a.isSort = true
      · rw [if_pos ha, Option.some.injEq]
        exact ⟨fun h => ⟨h, h ▸ ha⟩, And.left⟩
      · rw [if_neg ha]
        exact ⟨nofun, fun ⟨h, hs⟩ => absurd (h ▸ hs) ha⟩
  | sort =>
    refine ⟨nofun, fun ⟨hhead, hsort⟩ => ?_⟩
    obtain ⟨hshape, -⟩ := wellFormed_node_iff.mp h
    have hany : as.any isSort = true :=
      List.any_eq_true.mpr ⟨sort, List.mem_of_mem_head? hhead, hsort⟩
    unfold checkShape at hshape
    simp only [hany, if_true] at hshape
    split at hshape <;> exact absurd hshape nofun

/-- The sort that a term carries is one of its children. -/
theorem isSubterm_sortOf? {e sort : Expr} (h : e.sortOf? = some sort) : sort.IsSubterm e := by
  obtain ⟨k, s, as⟩ := e
  refine isSubterm_arg ?_
  cases k with
  | var => exact List.mem_of_mem_head? h
  | app =>
    cases as with
    | nil => exact absurd h nofun
    | cons a as =>
      unfold sortOf? splitSort at h
      simp only at h
      split at h
      · cases h
        exact List.mem_cons_self
      · exact absurd h nofun
  | sort => exact absurd h nofun

/-! ## Variables -/

theorem mem_varNames_iff {e : Expr} {name : String} :
    name ∈ e.varNames ↔ ∃ as, IsSubterm (.node .var name as) e := by
  rw [varNames, Std.ExtTreeSet.mem_ofList, List.contains_iff_mem, List.mem_map]
  constructor
  · rintro ⟨⟨p, ⟨k, s, as⟩⟩, h, rfl⟩
    obtain ⟨h, hvar⟩ := List.mem_filter.mp h
    have hk : k = .var := of_decide_eq_true hvar
    subst hk
    exact ⟨as, p, mem_subterms_iff.mp h⟩
  · rintro ⟨as, p, hp⟩
    exact ⟨(p, .node .var name as),
      List.mem_filter.mpr ⟨mem_subterms_iff.mpr hp, by simp [isVar, kind]⟩, rfl⟩

theorem varNames_subset {t e : Expr} (h : t.IsSubterm e) {name : String} (hn : name ∈ t.varNames) :
    name ∈ e.varNames := by
  obtain ⟨as, has⟩ := mem_varNames_iff.mp hn
  exact mem_varNames_iff.mpr ⟨as, has.trans h⟩

theorem mem_varsOutside_iff {e e' : Expr} {name : String} :
    name ∈ e.varsOutside e' ↔ name ∈ e.varNames ∧ name ∉ e'.varNames := by
  rw [varsOutside, List.mem_filter, Std.ExtTreeSet.mem_toList]
  simp

theorem varsOutside_eq_nil_iff {e e' : Expr} :
    e.varsOutside e' = [] ↔ ∀ name ∈ e.varNames, name ∈ e'.varNames := by
  rw [List.eq_nil_iff_forall_not_mem]
  refine forall_congr' fun name => ?_
  rw [mem_varsOutside_iff, not_and, Classical.not_not]

end SortedRewriting.Expr

namespace SortedRewriting

/-! ## One sort for each variable -/

/-- No variable name occurs with two different sorts in the expressions. -/
def SingleSorted (es : List Expr) : Prop :=
  ∀ name as as', (∃ e ∈ es, Expr.IsSubterm (.node .var name as) e) →
    (∃ e ∈ es, Expr.IsSubterm (.node .var name as') e) → as = as'

theorem singleSorted_iff {es : List Expr} : SingleSorted es ↔
    ∀ t ∈ Expr.subtermsOf es, ∀ t' ∈ Expr.subtermsOf es, t.kind = .var → t'.kind = .var →
      t.sym = t'.sym → t.args = t'.args := by
  simp only [Expr.mem_subtermsOf_iff]
  constructor
  · rintro h ⟨_, s, as⟩ ht ⟨_, s', as'⟩ ht' rfl rfl rfl
    exact h s as as' ht ht'
  · intro h name as as' has has'
    exact h _ has _ has' rfl rfl rfl

instance (es : List Expr) : Decidable (SingleSorted es) :=
  decidable_of_iff _ singleSorted_iff.symm

theorem SingleSorted.left {e e' : Expr} (h : SingleSorted [e, e']) : SingleSorted [e] := by
  intro name as as' has has'
  obtain ⟨_, hmem, hsub⟩ := has
  obtain ⟨_, hmem', hsub'⟩ := has'
  cases List.mem_singleton.mp hmem
  cases List.mem_singleton.mp hmem'
  exact h name as as' ⟨e, by simp, hsub⟩ ⟨e, by simp, hsub'⟩

theorem SingleSorted.swap {e e' : Expr} (h : SingleSorted [e, e']) : SingleSorted [e', e] := by
  have hmem : ∀ r ∈ [e', e], r ∈ [e, e'] := by simp
  rintro name as as' ⟨r, hr, hsub⟩ ⟨r', hr', hsub'⟩
  exact h name as as' ⟨r, hmem r hr, hsub⟩ ⟨r', hmem r' hr', hsub'⟩

end SortedRewriting
