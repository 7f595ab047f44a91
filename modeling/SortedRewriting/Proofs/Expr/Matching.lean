import SortedRewriting.Expr.Matching
import SortedRewriting.Proofs.Expr.Bindings
import SortedRewriting.Proofs.Expr.Subterms
import SortedRewriting.Proofs.Lists

/-!
# What matching decides

`Expr.Agrees σ p e` says that `e` is the pattern `p` under the assignment `σ`, and that every
variable of `p`, also inside a sort, stands for a term whose sort agrees with the variable's own.

* **`Expr.matchWith_sound`**: a match that does not fail agrees under its own bindings, and binds
  variables of the pattern only.
* **`Expr.matchWith_complete`**: where there is an agreement, matching does not fail and binds what
  the assignment does.
* `Expr.subst_of_agrees`: the pattern with the bindings put in is the matched expression.
-/

namespace SortedRewriting.Expr

open Bindings (Assignment failureName)

mutual

/-- The expression is the pattern under the assignment, which respects the sorts of variables. -/
def Agrees (σ : Assignment) : Expr → Expr → Prop
  | .node .var s as, e => σ s = some e ∧ ∃ sort, e.sortOf? = some sort ∧ AgreesSort σ as sort
  | .node k s as, .node k' s' as' => k = k' ∧ s = s' ∧ AgreesAll σ as as'

/-- The sort of a pattern variable agrees with the sort of a term. -/
def AgreesSort (σ : Assignment) : List Expr → Expr → Prop
  | [], _ => True
  | a :: _, sort => Agrees σ a sort

/-- Two lists agree child by child. -/
def AgreesAll (σ : Assignment) : List Expr → List Expr → Prop
  | [], [] => True
  | a :: as, b :: bs => Agrees σ a b ∧ AgreesAll σ as bs
  | _, _ => False

end

variable {σ τ : Assignment}

theorem agreesAll_iff {as bs : List Expr} :
    AgreesAll σ as bs ↔ List.Forall₂ (Agrees σ) as bs := by
  induction as generalizing bs with
  | nil => cases bs <;> simp [AgreesAll]
  | cons a as ih =>
    cases bs with
    | nil => simp [AgreesAll]
    | cons b bs => rw [AgreesAll, ih, List.forall₂_cons]

theorem agrees_node_iff {k k' : Kind} (hk : k ≠ .var) {s s' : String} {as bs : List Expr} :
    Agrees σ (.node k s as) (.node k' s' bs) ↔
      k = k' ∧ s = s' ∧ List.Forall₂ (Agrees σ) as bs := by
  rw [← agreesAll_iff]
  cases k with
  | var => exact absurd rfl hk
  | _ => exact Iff.rfl

mutual

/-- More bindings keep an agreement. -/
theorem Agrees.mono (hle : ∀ n x, σ n = some x → τ n = some x) :
    (p e : Expr) → Agrees σ p e → Agrees τ p e
  | .node .var s as, e, ⟨hs, sort, hsort, h⟩ =>
    ⟨hle s e hs, sort, hsort, AgreesSort.mono hle as sort h⟩
  | .node .app _ as, .node _ _ bs, ⟨hk, hs, h⟩ => ⟨hk, hs, AgreesAll.mono hle as bs h⟩
  | .node .sort _ as, .node _ _ bs, ⟨hk, hs, h⟩ => ⟨hk, hs, AgreesAll.mono hle as bs h⟩

theorem AgreesSort.mono (hle : ∀ n x, σ n = some x → τ n = some x) :
    (as : List Expr) → (e : Expr) → AgreesSort σ as e → AgreesSort τ as e
  | [], _, _ => trivial
  | a :: _, e, h => Agrees.mono hle a e h

theorem AgreesAll.mono (hle : ∀ n x, σ n = some x → τ n = some x) :
    (as bs : List Expr) → AgreesAll σ as bs → AgreesAll τ as bs
  | [], [], _ => trivial
  | a :: as, b :: bs, ⟨h, hs⟩ => ⟨Agrees.mono hle a b h, AgreesAll.mono hle as bs hs⟩

end

/-! ## Soundness -/

/-- A dictionary binds names from a set to expressions that are no sorts. -/
def BindsOnly (d : Bindings) (names : String → Prop) : Prop :=
  ∀ n x, d.get? n = some x → names n ∧ x.isSort = false

mutual

/-- **A match that does not fail agrees under its bindings.** -/
theorem matchWith_sound : (p e : Expr) → (matchWith p e).isFailed = false →
    Agrees (matchWith p e).get? p e ∧ BindsOnly (matchWith p e) (· ∈ p.varNames)
  | .node .var s as, e, h => by
    unfold matchWith at h ⊢
    cases hsort : e.sortOf? with
    | none =>
      rw [hsort] at h
      exact absurd (h.symm.trans Bindings.isFailed_failed) nofun
    | some sort =>
      rw [hsort] at h
      obtain ⟨hbind, hmatch, hget⟩ := Bindings.merge_sound h
      obtain ⟨-, hs, hget'⟩ := Bindings.bind_sound hbind
      obtain ⟨hagrees, honly⟩ := matchSort_sound as sort hmatch
      refine ⟨⟨(hget s e).mpr (.inl ((hget' s e).mpr (.inr ⟨rfl, rfl⟩))), sort, hsort, ?_⟩, ?_⟩
      · exact AgreesSort.mono (fun n x hx => (hget n x).mpr (.inr hx)) as sort hagrees
      · intro n x hx
        rcases (hget n x).mp hx with hx | hx
        · rcases (hget' n x).mp hx with hx | ⟨rfl, rfl⟩
          · simp at hx
          · exact ⟨mem_varNames_iff.mpr ⟨as, .refl _⟩, hs⟩
        · obtain ⟨⟨a, ha, hn⟩, hx⟩ := honly n x hx
          exact ⟨varNames_subset (isSubterm_arg ha) hn, hx⟩
  | .node .app s as, .node k' s' bs, h => by
    unfold matchWith at h ⊢
    by_cases hc : Kind.app = k' ∧ s = s' ∧ as.length = bs.length
    · rw [if_pos hc] at h ⊢
      obtain ⟨-, hagrees, -, honly⟩ := matchAll_sound .empty as bs hc.2.2 h
      exact ⟨⟨hc.1, hc.2.1, hagrees⟩, fun n x hx => (honly n x hx).elim (by simp)
        fun ⟨⟨a, ha, hn⟩, hx⟩ => ⟨varNames_subset (isSubterm_arg ha) hn, hx⟩⟩
    · rw [if_neg hc] at h
      exact absurd (h.symm.trans Bindings.isFailed_failed) nofun
  | .node .sort s as, .node k' s' bs, h => by
    unfold matchWith at h ⊢
    by_cases hc : Kind.sort = k' ∧ s = s' ∧ as.length = bs.length
    · rw [if_pos hc] at h ⊢
      obtain ⟨-, hagrees, -, honly⟩ := matchAll_sound .empty as bs hc.2.2 h
      exact ⟨⟨hc.1, hc.2.1, hagrees⟩, fun n x hx => (honly n x hx).elim (by simp)
        fun ⟨⟨a, ha, hn⟩, hx⟩ => ⟨varNames_subset (isSubterm_arg ha) hn, hx⟩⟩
    · rw [if_neg hc] at h
      exact absurd (h.symm.trans Bindings.isFailed_failed) nofun

theorem matchSort_sound : (as : List Expr) → (e : Expr) → (matchSort as e).isFailed = false →
    AgreesSort (matchSort as e).get? as e ∧
      BindsOnly (matchSort as e) fun n => ∃ a ∈ as, n ∈ a.varNames
  | [], _, _ => ⟨trivial, fun n x hx => by simp [matchSort] at hx⟩
  | a :: as, e, h =>
    ⟨(matchWith_sound a e h).1, fun n x hx =>
      have h := (matchWith_sound a e h).2 n x hx
      ⟨⟨a, List.mem_cons_self, h.1⟩, h.2⟩⟩

theorem matchAll_sound (d : Bindings) : (as bs : List Expr) → as.length = bs.length →
    (matchAll d as bs).isFailed = false →
    d.isFailed = false ∧ AgreesAll (matchAll d as bs).get? as bs ∧
      (∀ n x, d.get? n = some x → (matchAll d as bs).get? n = some x) ∧
      ∀ n x, (matchAll d as bs).get? n = some x →
        d.get? n = some x ∨ (∃ a ∈ as, n ∈ a.varNames) ∧ x.isSort = false
  | [], [], _, h => by
    unfold matchAll at h ⊢
    exact ⟨h, trivial, fun _ _ hx => hx, fun _ _ hx => .inl hx⟩
  | a :: as, b :: bs, hlen, h => by
    unfold matchAll at h ⊢
    simp only at h ⊢
    by_cases hd : (d.merge (matchWith a b)).isFailed = true
    · rw [if_pos hd, hd] at h
      exact absurd h nofun
    · rw [if_neg hd] at h ⊢
      obtain ⟨hd, hagrees, hle, honly⟩ :=
        matchAll_sound (d.merge (matchWith a b)) as bs (Nat.succ.inj hlen) h
      obtain ⟨hok, hmatch, hget⟩ := Bindings.merge_sound hd
      obtain ⟨hab, hvars⟩ := matchWith_sound a b hmatch
      refine ⟨hok, ⟨?_, hagrees⟩, fun n x hx => hle n x ((hget n x).mpr (.inl hx)), ?_⟩
      · exact hab.mono (fun n x hx => hle n x ((hget n x).mpr (.inr hx))) a b
      · intro n x hx
        rcases honly n x hx with hx | ⟨⟨a', ha', hn⟩, hs⟩
        · rcases (hget n x).mp hx with hx | hx
          · exact .inl hx
          · obtain ⟨hn, hs⟩ := hvars n x hx
            exact .inr ⟨⟨a, List.mem_cons_self, hn⟩, hs⟩
        · exact .inr ⟨⟨a', List.mem_cons_of_mem a ha', hn⟩, hs⟩

end

/-! ## Completeness -/

/-- A sort has no sort of its own. -/
theorem isSort_of_sortOf? {e sort : Expr} (h : e.sortOf? = some sort) : e.isSort = false := by
  obtain ⟨k, s, as⟩ := e
  cases k with
  | sort => exact absurd h nofun
  | _ => rfl

mutual

/-- **Where there is an agreement, matching finds it.** -/
theorem matchWith_complete (hσ : σ failureName = none) : (p e : Expr) → Agrees σ p e →
    (matchWith p e).Under σ
  | .node .var s as, e, ⟨hs, sort, hsort, h⟩ => by
    unfold matchWith
    rw [hsort]
    refine (Bindings.under_empty.bind ?_ hs (isSort_of_sortOf? hsort)).merge
      (matchSort_complete hσ as sort h)
    rintro rfl
    rw [hσ] at hs
    exact absurd hs nofun
  | .node .app _ as, .node _ _ bs, ⟨hk, hs, h⟩ => by
    unfold matchWith
    rw [if_pos ⟨hk, hs, (agreesAll_iff.mp h).length_eq⟩]
    exact matchAll_complete hσ .empty Bindings.under_empty as bs h
  | .node .sort _ as, .node _ _ bs, ⟨hk, hs, h⟩ => by
    unfold matchWith
    rw [if_pos ⟨hk, hs, (agreesAll_iff.mp h).length_eq⟩]
    exact matchAll_complete hσ .empty Bindings.under_empty as bs h

theorem matchSort_complete (hσ : σ failureName = none) : (as : List Expr) → (e : Expr) →
    AgreesSort σ as e → (matchSort as e).Under σ
  | [], _, _ => Bindings.under_empty
  | a :: _, e, h => matchWith_complete hσ a e h

theorem matchAll_complete (hσ : σ failureName = none) (d : Bindings) (hd : d.Under σ) :
    (as bs : List Expr) → AgreesAll σ as bs → (matchAll d as bs).Under σ
  | [], [], _ => hd
  | a :: as, b :: bs, ⟨h, hs⟩ => by
    have hmerge := hd.merge (matchWith_complete hσ a b h)
    unfold matchAll
    simp only
    rw [if_neg (by rw [hmerge.ok]; nofun)]
    exact matchAll_complete hσ _ hmerge as bs hs

end

/-! ## Agreement and substitution -/

mutual

/-- The pattern with the bindings put in is the expression that it agrees with. -/
theorem subst_of_agrees {d : Bindings} : (p e : Expr) → Agrees d.get? p e → p.subst d = e
  | .node .var s as, e, ⟨hs, _, _, _⟩ => by
    unfold subst
    rw [hs]
  | .node .app s as, .node _ _ bs, ⟨hk, hs, h⟩ => by
    unfold subst
    rw [← hk, ← hs, substAll_of_agrees as bs h]
  | .node .sort s as, .node _ _ bs, ⟨hk, hs, h⟩ => by
    unfold subst
    rw [← hk, ← hs, substAll_of_agrees as bs h]

theorem substAll_of_agrees {d : Bindings} : (as bs : List Expr) → AgreesAll d.get? as bs →
    substAll d as = bs
  | [], [], _ => rfl
  | a :: as, b :: bs, ⟨h, hs⟩ => by
    unfold substAll
    rw [subst_of_agrees a b h, substAll_of_agrees as bs hs]

end

/-- Every variable of the pattern stands for a subterm of the expression. -/
theorem Agrees.binding {p e : Expr} (hp : p.WellFormed) (h : Agrees σ p e) {name : String}
    {rest : List Expr} (hv : IsSubterm (.node .var name rest) p) :
    ∃ x, σ name = some x ∧ x.IsSubterm e := by
  induction p generalizing e with
  | node k s as ih =>
    have hargs := (wellFormed_node_iff.mp hp).2
    by_cases hk : k = .var
    · subst hk
      obtain ⟨sort, rfl, -, hsort⟩ := hp.var_args
      obtain ⟨hs, esort, hesort, hagrees⟩ := h
      rcases isSubterm_node_iff.mp hv with hv | ⟨a, ha, hv⟩
      · cases hv
        exact ⟨e, hs, .refl e⟩
      · cases List.mem_singleton.mp ha
        obtain ⟨x, hx, hsub⟩ := ih sort List.mem_cons_self hsort hagrees hv
        exact ⟨x, hx, hsub.trans (isSubterm_sortOf? hesort)⟩
    · obtain ⟨k', s', bs⟩ := e
      obtain ⟨rfl, rfl, hall⟩ := (agrees_node_iff hk).mp h
      rcases isSubterm_node_iff.mp hv with hv | ⟨a, ha, hv⟩
      · cases hv
        exact absurd rfl hk
      · obtain ⟨b, hb, hab⟩ := exists_of_mem_left hall ha
        obtain ⟨x, hx, hsub⟩ := ih a ha (hargs a ha) hab hv
        exact ⟨x, hx, hsub.trans (isSubterm_arg hb)⟩

/-- The name of a variable is not empty. -/
theorem WellFormed.ne_failureName {p : Expr} (hp : p.WellFormed) {name : String}
    (h : name ∈ p.varNames) : name ≠ failureName := by
  rintro rfl
  obtain ⟨as, hsub⟩ := mem_varNames_iff.mp h
  have hshape := (wellFormed_node_iff.mp (hp.subterm hsub)).1
  exact absurd hshape nofun

/-- What a match binds are subterms of the matched expression, and no sorts. -/
theorem matchWith_binds {p e : Expr} (hp : p.WellFormed) (h : (matchWith p e).isFailed = false)
    {name : String} {x : Expr} (hx : (matchWith p e).get? name = some x) :
    x.IsSubterm e ∧ x.isSort = false := by
  obtain ⟨hagrees, honly⟩ := matchWith_sound p e h
  obtain ⟨hname, hs⟩ := honly name x hx
  obtain ⟨rest, hv⟩ := mem_varNames_iff.mp hname
  obtain ⟨y, hy, hsub⟩ := hagrees.binding hp hv
  rw [hx] at hy
  cases hy
  exact ⟨hsub, hs⟩

end SortedRewriting.Expr
