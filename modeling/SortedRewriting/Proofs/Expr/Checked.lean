import SortedRewriting.Proofs.Theory.Erasure

/-!
# Substitution and erasure with every node checked

Substitution and erasure build their nodes without a look at the shape rules. `Expr.substChecked`
and `Expr.eraseChecked` build the same nodes with the checked constructor instead, and end at the
first shape rule that a node breaks.

* `Bindings.Obtained`: the dictionaries that come of well-formed expressions in any number of
  operations, whether these fail or not.
* **`Bindings.Obtained.bindsTerms`**: they bind well-formed terms only.
* **`Expr.WellFormed.substChecked`**, **`Expr.WellFormed.eraseChecked`**: on well-formed expressions
  no check fails.
-/

namespace SortedRewriting

namespace Expr

variable {d d' : Bindings} {name : String} {value e : Expr}

/-! ## Dictionaries -/

theorem bindsTerms_empty : BindsTerms .empty := fun n x hx => by simp at hx

/-- Nothing is read from the failed dictionary: its one entry stands under the reserved name. -/
theorem bindsTerms_failed : BindsTerms .failed := by
  intro n x hx
  unfold Bindings.get? at hx
  split at hx
  · cases hx
  · rename_i hn
    have hne : ¬ compare Bindings.failureName n = .eq := fun h =>
      hn (Std.LawfulEqCmp.compare_eq_iff_eq.mp h).symm
    rw [Bindings.failed, Std.ExtTreeMap.getElem?_insert, if_neg hne] at hx
    simp at hx

/-- Binding the reserved name keeps the entries that are there. They stay terms. -/
theorem BindsTerms.bind (hd : BindsTerms d) (hvalue : value.WellFormed) (name : String) :
    BindsTerms (d.bind name value) := by
  unfold Bindings.bind
  split
  · exact hd
  split
  · exact bindsTerms_failed
  rename_i hsort
  split
  · split
    · exact hd
    · exact bindsTerms_failed
  · intro n x hx
    unfold Bindings.get? at hx
    split at hx
    · cases hx
    · rename_i hn
      rw [Std.ExtTreeMap.getElem?_insert] at hx
      split at hx
      · cases hx
        exact ⟨hvalue, eq_false_of_ne_true hsort⟩
      · exact hd n x (by rw [Bindings.get?, if_neg hn, hx])

theorem BindsTerms.bindAll {pairs : List (String × Expr)} (hd : BindsTerms d)
    (h : ∀ pair ∈ pairs, pair.2.WellFormed) : BindsTerms (d.bindAll pairs) := by
  induction pairs generalizing d with
  | nil => exact hd
  | cons pair pairs ih =>
    obtain ⟨hpair, h⟩ := List.forall_mem_cons.mp h
    exact ih (hd.bind hpair pair.1) h

theorem BindsTerms.merge (hd : BindsTerms d) (hd' : BindsTerms d') : BindsTerms (d.merge d') := by
  unfold Bindings.merge
  split
  · exact bindsTerms_failed
  · rename_i hfailed
    rw [Bool.or_eq_true, not_or] at hfailed
    have hok : d'.isFailed = false := eq_false_of_ne_true hfailed.2
    exact hd.bindAll fun pair hpair =>
      (hd' pair.1 pair.2 ((Bindings.mem_toList_iff hok).mp hpair)).1

mutual

/-- Matching binds well-formed terms, however far it gets. -/
theorem bindsTerms_matchWith : (p e : Expr) → e.WellFormed → BindsTerms (p.matchWith e)
  | .node .var s as, e, he => by
    unfold matchWith
    cases hsort : e.sortOf? with
    | none => exact bindsTerms_failed
    | some sort =>
      refine (bindsTerms_empty.bind he s).merge (bindsTerms_matchSort as sort ?_)
      exact he.subterm (isSubterm_sortOf? hsort)
  | .node .app _ as, .node _ _ bs, he => by
    unfold matchWith
    split
    · exact bindsTerms_matchAll as bs (wellFormed_node_iff.mp he).2 bindsTerms_empty
    · exact bindsTerms_failed
  | .node .sort _ as, .node _ _ bs, he => by
    unfold matchWith
    split
    · exact bindsTerms_matchAll as bs (wellFormed_node_iff.mp he).2 bindsTerms_empty
    · exact bindsTerms_failed

theorem bindsTerms_matchSort : (as : List Expr) → (e : Expr) → e.WellFormed →
    BindsTerms (matchSort as e)
  | [], _, _ => bindsTerms_empty
  | a :: _, e, he => bindsTerms_matchWith a e he

theorem bindsTerms_matchAll : (as bs : List Expr) → (∀ b ∈ bs, b.WellFormed) →
    ∀ {d : Bindings}, BindsTerms d → BindsTerms (matchAll d as bs)
  | [], _, _, d, hd => by
    unfold matchAll
    exact hd
  | _ :: _, [], _, d, hd => by
    unfold matchAll
    exact hd
  | a :: as, b :: bs, hbs, d, hd => by
    obtain ⟨hb, hbs⟩ := List.forall_mem_cons.mp hbs
    have hd' := hd.merge (bindsTerms_matchWith a b hb)
    unfold matchAll
    simp only
    split
    · exact hd'
    · exact bindsTerms_matchAll as bs hbs hd'

end

end Expr

/-- A dictionary that comes of well-formed expressions in any number of operations. -/
inductive Bindings.Obtained : Bindings → Prop
  | empty : Obtained .empty
  | failed : Obtained .failed
  | bind {d : Bindings} {value : Expr} (obtained : Obtained d) (name : String)
      (wellFormed : value.WellFormed) : Obtained (d.bind name value)
  | merge {d d' : Bindings} (left : Obtained d) (right : Obtained d') : Obtained (d.merge d')
  | matched {p e : Expr} (pattern : p.WellFormed) (wellFormed : e.WellFormed) :
      Obtained (p.matchWith e)

/-- **A dictionary binds well-formed terms only, whatever operations it comes from.** -/
theorem Bindings.Obtained.bindsTerms {d : Bindings} (h : d.Obtained) : Expr.BindsTerms d := by
  induction h with
  | empty => exact Expr.bindsTerms_empty
  | failed => exact Expr.bindsTerms_failed
  | bind _ name wellFormed ih => exact ih.bind wellFormed name
  | merge _ _ left right => exact left.merge right
  | matched _ wellFormed => exact Expr.bindsTerms_matchWith _ _ wellFormed

namespace Expr

/-! ## Checked substitution -/

mutual

/-- Substitution that checks every node it builds. -/
def substChecked (d : Bindings) : Expr → Except ShapeError Expr
  | .node .var s as =>
    match d.get? s with
    | some bound => .ok bound
    | none => do
      let as ← substAllChecked d as
      build .var s as
  | .node k s as => do
    let as ← substAllChecked d as
    build k s as

/-- Checked substitution in each expression of a list. -/
def substAllChecked (d : Bindings) : List Expr → Except ShapeError (List Expr)
  | [] => .ok []
  | a :: as => do
    let a ← substChecked d a
    let as ← substAllChecked d as
    return a :: as

end

variable {d : Bindings} {e : Expr} {k : Kind} {s : String} {as : List Expr}

theorem substAllChecked_eq_ok (h : ∀ a ∈ as, a.substChecked d = .ok (a.subst d)) :
    substAllChecked d as = .ok (as.map (subst d)) := by
  induction as with
  | nil => rfl
  | cons a as ih =>
    obtain ⟨ha, has⟩ := List.forall_mem_cons.mp h
    rw [substAllChecked, ha, ih has]
    rfl

/-- The checked constructor returns what the plain one makes, if that is well formed. -/
theorem WellFormed.build_eq_ok (h : WellFormed (.node k s as)) :
    build k s as = .ok (.node k s as) :=
  build_eq_ok_iff.mpr ⟨(wellFormed_node_iff.mp h).1, rfl⟩

/-- **No node that substitution builds breaks a shape rule.** -/
theorem WellFormed.substChecked (hd : BindsTerms d) (he : e.WellFormed) :
    e.substChecked d = .ok (e.subst d) := by
  induction e with
  | node k s as ih =>
    have hargs := substAllChecked_eq_ok fun a ha => ih a ha ((wellFormed_node_iff.mp he).2 a ha)
    have hwf := (he.subst hd).1
    cases k with
    | var =>
      unfold Expr.subst at hwf ⊢
      unfold Expr.substChecked
      cases hb : d.get? s with
      | some bound => rfl
      | none =>
        rw [hb] at hwf
        simp only [substAll_eq_map] at hwf ⊢
        rw [hargs]
        exact hwf.build_eq_ok
    | app =>
      rw [Expr.subst, substAll_eq_map] at hwf ⊢
      · rw [Expr.substChecked, hargs]
        · exact hwf.build_eq_ok
        · exact fun h => Kind.noConfusion h
      all_goals exact fun h => Kind.noConfusion h
    | sort =>
      rw [Expr.subst, substAll_eq_map] at hwf ⊢
      · rw [Expr.substChecked, hargs]
        · exact hwf.build_eq_ok
        · exact fun h => Kind.noConfusion h
      all_goals exact fun h => Kind.noConfusion h

/-! ## Checked erasure -/

mutual

/-- Erasure that checks every node it builds. -/
def eraseChecked : Expr → Except ShapeError Expr
  | .node .app s as => do
    let as ← eraseTermsChecked as
    build .app s as
  | .node k s as => do
    let as ← eraseAllChecked as
    build k s as

/-- Checked erasure in each expression of a list. -/
def eraseAllChecked : List Expr → Except ShapeError (List Expr)
  | [] => .ok []
  | a :: as => do
    let a ← eraseChecked a
    let as ← eraseAllChecked as
    return a :: as

/-- Checked erasure in each expression of a list that is not a sort. -/
def eraseTermsChecked : List Expr → Except ShapeError (List Expr)
  | [] => .ok []
  | a :: as =>
    if a.isSort then eraseTermsChecked as
    else do
      let a ← eraseChecked a
      let as ← eraseTermsChecked as
      return a :: as

end

theorem eraseAllChecked_eq_ok (h : ∀ a ∈ as, a.eraseChecked = .ok a.erase) :
    eraseAllChecked as = .ok (as.map erase) := by
  induction as with
  | nil => rfl
  | cons a as ih =>
    obtain ⟨ha, has⟩ := List.forall_mem_cons.mp h
    rw [eraseAllChecked, ha, ih has]
    rfl

theorem eraseTermsChecked_eq (as : List Expr) :
    eraseTermsChecked as = eraseAllChecked (termsOf as) := by
  induction as with
  | nil => rfl
  | cons a as ih =>
    unfold eraseTermsChecked
    by_cases ha : a.isSort = true
    · rw [if_pos ha, ih, termsOf, termsOf, List.filter_cons_of_neg (by simp [ha])]
    · rw [if_neg ha, ih, termsOf, termsOf, List.filter_cons_of_pos (by simp [ha]), eraseAllChecked]

/-- **No node that erasure builds breaks a shape rule.** -/
theorem WellFormed.eraseChecked (he : e.WellFormed) : e.eraseChecked = .ok e.erase := by
  induction e with
  | node k s as ih =>
    have hargs : ∀ a ∈ as, a.eraseChecked = .ok a.erase := fun a ha =>
      ih a ha ((wellFormed_node_iff.mp he).2 a ha)
    have hwf := he.erase
    by_cases hk : k = .app
    · subst hk
      rw [erase_app] at hwf ⊢
      rw [Expr.eraseChecked, eraseTermsChecked_eq,
        eraseAllChecked_eq_ok fun a ha => hargs a (mem_termsOf_iff.mp ha).1]
      exact hwf.build_eq_ok
    · rw [erase_node hk] at hwf ⊢
      rw [Expr.eraseChecked, eraseAllChecked_eq_ok hargs]
      · exact hwf.build_eq_ok
      · exact fun h => hk h

end Expr

end SortedRewriting
