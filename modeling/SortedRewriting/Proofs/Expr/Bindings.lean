import SortedRewriting.Expr.Bindings

/-!
# Dictionaries as partial assignments

A dictionary that has not failed is a partial assignment of expressions to names, its `get?`. It is
`Under` an assignment when it has not failed and its bindings are bindings of that assignment, to
expressions that are no sorts.

* `Bindings.merge_sound`: a merge that does not fail binds what either dictionary binds.
* `Bindings.Under.merge`: dictionaries under one assignment merge under it.
-/

namespace SortedRewriting.Bindings

/-- A partial assignment of expressions to names. -/
abbrev Assignment := String → Option Expr

variable {d d' : Bindings} {name : String} {value : Expr}

theorem isFailed_failed : failed.isFailed = true := by
  unfold failed isFailed
  exact Std.ExtTreeMap.contains_insert_self

theorem isFailed_empty : empty.isFailed = false := Std.ExtTreeMap.contains_empty

@[simp] theorem get?_empty : empty.get? name = none := by
  unfold get?
  split
  · rfl
  · exact Std.ExtTreeMap.getElem?_empty

/-- The reserved name is not bound unless the dictionary has failed. -/
theorem get?_eq_entries (h : d.isFailed = false) : d.get? name = d.entries[name]? := by
  unfold get?
  split
  · rename_i hn
    rw [hn, Std.ExtTreeMap.getElem?_eq_none_of_contains_eq_false h]
  · rfl

theorem isFailed_insert (h : d.isFailed = false) (hn : name ≠ failureName) :
    Bindings.isFailed ⟨d.entries.insert name value⟩ = false := by
  rw [isFailed, Std.ExtTreeMap.contains_insert, Bool.or_eq_false_iff]
  exact ⟨by simpa using hn, h⟩

theorem get?_insert (h : d.isFailed = false) (hn : name ≠ failureName) (other : String) :
    Bindings.get? ⟨d.entries.insert name value⟩ other =
      if name = other then some value else d.get? other := by
  rw [get?_eq_entries (isFailed_insert h hn), get?_eq_entries h, Std.ExtTreeMap.getElem?_insert]
  simp

/-! ## Success -/

/-- What a successful binding binds. -/
theorem bind_sound (h : (d.bind name value).isFailed = false) :
    d.isFailed = false ∧ value.isSort = false ∧ ∀ n x, (d.bind name value).get? n = some x ↔
      d.get? n = some x ∨ (n = name ∧ x = value) := by
  unfold bind at h ⊢
  by_cases hd : d.isFailed = true
  · rw [if_pos hd, hd] at h
    exact absurd h nofun
  · rw [if_neg hd] at h ⊢
    have hd : d.isFailed = false := by simpa using hd
    by_cases hs : value.isSort = true
    · rw [if_pos hs, isFailed_failed] at h
      exact absurd h nofun
    · rw [if_neg hs] at h ⊢
      refine ⟨hd, by simpa using hs, fun n x => ?_⟩
      cases hb : d.entries[name]? with
      | some bound =>
        rw [hb] at h
        by_cases he : bound = value
        · subst he
          simp only [if_true]
          rw [← get?_eq_entries hd] at hb
          constructor
          · exact .inl
          · rintro (h | ⟨rfl, rfl⟩)
            · exact h
            · exact hb
        · simp only [if_neg he, isFailed_failed] at h
          exact absurd h nofun
      | none =>
        rw [hb] at h
        simp only at h ⊢
        have hn : name ≠ failureName := by
          rintro rfl
          rw [isFailed, Std.ExtTreeMap.contains_insert_self] at h
          exact absurd h nofun
        have hfree : d.get? name = none := by rw [get?_eq_entries hd, hb]
        rw [get?_insert hd hn]
        by_cases he : name = n
        · subst he
          rw [if_pos rfl, hfree]
          simp [eq_comm]
        · rw [if_neg he]
          simp [Ne.symm he]

theorem bindAll_sound {pairs : List (String × Expr)} (h : (d.bindAll pairs).isFailed = false) :
    d.isFailed = false ∧ ∀ n x, (d.bindAll pairs).get? n = some x ↔
      d.get? n = some x ∨ (n, x) ∈ pairs := by
  induction pairs generalizing d with
  | nil => exact ⟨h, fun n x => by simp [bindAll]⟩
  | cons pair pairs ih =>
    obtain ⟨hbind, hget⟩ := ih h
    obtain ⟨hd, -, hget'⟩ := bind_sound hbind
    refine ⟨hd, fun n x => ?_⟩
    rw [List.mem_cons, Prod.ext_iff, ← or_assoc]
    exact (hget n x).trans (or_congr_left (hget' n x))

theorem mem_toList_iff (h : d.isFailed = false) {value : Expr} :
    (name, value) ∈ d.toList ↔ d.get? name = some value := by
  rw [get?_eq_entries h, toList, Std.ExtTreeMap.mem_toList_iff_getElem?_eq_some]

/-- **A merge that does not fail binds what either dictionary binds.** -/
theorem merge_sound (h : (d.merge d').isFailed = false) :
    d.isFailed = false ∧ d'.isFailed = false ∧
      ∀ n x, (d.merge d').get? n = some x ↔ d.get? n = some x ∨ d'.get? n = some x := by
  unfold merge at h ⊢
  by_cases hf : (d.isFailed || d'.isFailed) = true
  · rw [if_pos hf, isFailed_failed] at h
    exact absurd h nofun
  · rw [if_neg hf] at h ⊢
    have hd' : d'.isFailed = false := by
      simp only [Bool.or_eq_true, not_or, Bool.not_eq_true] at hf
      exact hf.2
    obtain ⟨hd, hget⟩ := bindAll_sound h
    refine ⟨hd, hd', fun n x => ?_⟩
    rw [hget, mem_toList_iff hd']

/-! ## Under an assignment -/

/-- Not failed, and every binding is one of the assignment, to no sort. -/
structure Under (d : Bindings) (σ : Assignment) : Prop where
  ok : d.isFailed = false
  binds : ∀ n x, d.get? n = some x → σ n = some x ∧ x.isSort = false

variable {σ : Assignment}

theorem under_empty : empty.Under σ :=
  ⟨isFailed_empty, fun n x h => by simp at h⟩

theorem Under.bind (hd : d.Under σ) (hn : name ≠ failureName) (hv : σ name = some value)
    (hs : value.isSort = false) : (d.bind name value).Under σ := by
  unfold Bindings.bind
  rw [if_neg (by rw [hd.ok]; nofun), if_neg (by rw [hs]; nofun)]
  cases hb : d.entries[name]? with
  | some bound =>
    rw [← get?_eq_entries hd.ok] at hb
    have hbound : bound = value := by
      have := (hd.binds _ _ hb).1
      rw [hv] at this
      exact (Option.some.inj this).symm
    show (if bound = value then d else failed).Under σ
    rw [if_pos hbound]
    exact hd
  | none =>
    refine ⟨isFailed_insert hd.ok hn, fun n x h => ?_⟩
    rw [get?_insert hd.ok hn] at h
    split at h
    · rename_i he
      cases h
      exact ⟨he ▸ hv, hs⟩
    · exact hd.binds n x h

theorem Under.bindAll {pairs : List (String × Expr)} (hd : d.Under σ)
    (h : ∀ pair ∈ pairs, pair.1 ≠ failureName ∧ σ pair.1 = some pair.2 ∧ pair.2.isSort = false) :
    (d.bindAll pairs).Under σ := by
  induction pairs generalizing d with
  | nil => exact hd
  | cons pair pairs ih =>
    obtain ⟨⟨hn, hv, hs⟩, h⟩ := List.forall_mem_cons.mp h
    exact ih (hd.bind hn hv hs) h

theorem Under.merge (hd : d.Under σ) (hd' : d'.Under σ) : (d.merge d').Under σ := by
  unfold Bindings.merge
  rw [if_neg (by rw [hd.ok, hd'.ok]; nofun)]
  refine hd.bindAll fun pair hpair => ?_
  have hget := (mem_toList_iff hd'.ok).mp hpair
  obtain ⟨hv, hs⟩ := hd'.binds _ _ hget
  refine ⟨fun hn => ?_, hv, hs⟩
  rw [get?, if_pos hn] at hget
  exact absurd hget nofun

end SortedRewriting.Bindings
