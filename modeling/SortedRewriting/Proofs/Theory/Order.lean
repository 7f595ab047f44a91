import Mathlib.Data.List.Nodup
import SortedRewriting.Proofs.Expr.Subterms
import SortedRewriting.Theory.Order

/-!
# Operators come after what they depend on

`Ordered needs done order`: everything in the list is new, and stands behind all that it needs.

* `Pending.ordered_place`: the layers that are placed are ordered, at any limit on their number.
* **`Theory.ordered_operatorOrder`**: the order of operators is an order of all operators, each
  behind those that it depends on.
-/

namespace SortedRewriting.Theory

/-- A list that goes on from what is done, and in which everything stands behind what it needs. -/
inductive Ordered (needs : String → String → Prop) : List String → List String → Prop
  | nil {done : List String} : Ordered needs done []
  | cons {done : List String} {f : String} {fs : List String} (new : f ∉ done)
      (needed : ∀ g, needs f g → g ∈ done) (rest : Ordered needs (f :: done) fs) :
      Ordered needs done (f :: fs)

variable {needs : String → String → Prop} {done order : List String}

/-- A layer needs what is done only, and may come in any order. -/
theorem Ordered.append {layer : List String} (hnodup : layer.Nodup)
    (hlayer : ∀ f ∈ layer, f ∉ done ∧ ∀ g, needs f g → g ∈ done)
    (h : Ordered needs (layer.reverse ++ done) order) : Ordered needs done (layer ++ order) := by
  induction layer generalizing done with
  | nil => exact h
  | cons f layer ih =>
    obtain ⟨hf, hnodup⟩ := List.nodup_cons.mp hnodup
    obtain ⟨⟨hnew, hneeded⟩, hlayer⟩ := List.forall_mem_cons.mp hlayer
    rw [List.reverse_cons, List.append_assoc] at h
    refine .cons hnew hneeded (ih hnodup (fun g hg => ?_) h)
    obtain ⟨hg', hneeds⟩ := hlayer g hg
    refine ⟨fun hmem => ?_, fun x hx => List.mem_cons_of_mem f (hneeds x hx)⟩
    rcases List.mem_cons.mp hmem with rfl | hmem
    · exact hf hg
    · exact hg' hmem

theorem Ordered.notMem {f : String} (h : Ordered needs done order) (hf : f ∈ done) :
    f ∉ order := by
  induction h with
  | nil => exact List.not_mem_nil
  | @cons done g gs new needed rest ih =>
    intro hmem
    rcases List.mem_cons.mp hmem with rfl | hmem
    · exact new hf
    · exact ih (List.mem_cons_of_mem g hf) hmem

/-! ## Layers -/

namespace Pending

variable {ps : List Pending} {p : Pending} {f : String}

theorem mem_layer_iff : f ∈ layer ps ↔ ∃ p ∈ ps, p.waitsFor = [] ∧ p.sym = f := by
  simp only [layer, isReady, List.mem_map, List.mem_filter, List.isEmpty_iff, and_assoc]

theorem mem_remaining_iff : p ∈ remaining ps ↔
    ∃ q ∈ ps, q.waitsFor ≠ [] ∧ q.without (layer ps) = p := by
  simp [remaining, isReady, and_assoc]

theorem nodup_layer (h : (ps.map (·.sym)).Nodup) : (layer ps).Nodup :=
  h.sublist (List.filter_sublist.map _)

theorem nodup_remaining (h : (ps.map (·.sym)).Nodup) : ((remaining ps).map (·.sym)).Nodup := by
  unfold remaining
  rw [List.map_map]
  exact h.sublist (List.filter_sublist.map _)

/-- What still waits is in no layer yet. -/
theorem sym_notMem_layer (h : (ps.map (·.sym)).Nodup) (hp : p ∈ ps) (hwaits : p.waitsFor ≠ []) :
    p.sym ∉ layer ps := by
  intro hmem
  obtain ⟨q, hq, hready, hsym⟩ := mem_layer_iff.mp hmem
  cases List.inj_on_of_nodup_map h hq hp hsym
  exact hwaits hready

theorem place_succ {n : Nat} (h : (layer ps).isEmpty = false) : place (n + 1) ps =
    (layer ps ++ (place n (remaining ps)).1, (place n (remaining ps)).2) := by
  rw [place, h]
  rfl

theorem place_of_isEmpty {n : Nat} (h : (layer ps).isEmpty = true) : place n ps = ([], ps) := by
  cases n with
  | zero => rfl
  | succ n => rw [place, if_pos h]

/-- **The layers that are placed are ordered.** -/
theorem ordered_place (n : Nat) (hnodup : (ps.map (·.sym)).Nodup)
    (hps : ∀ p ∈ ps, p.sym ∉ done ∧ ∀ g, needs p.sym g → g ∈ done ∨ g ∈ p.waitsFor) :
    Ordered needs done (place n ps).1 := by
  induction n generalizing ps done with
  | zero => exact .nil
  | succ n ih =>
    cases hempty : (layer ps).isEmpty with
    | true =>
      rw [place_of_isEmpty hempty]
      exact .nil
    | false =>
      rw [place_succ hempty]
      refine .append (nodup_layer hnodup) (fun f hf => ?_) (ih (nodup_remaining hnodup) ?_)
      · obtain ⟨p, hp, hready, rfl⟩ := mem_layer_iff.mp hf
        obtain ⟨hnew, hneeds⟩ := hps p hp
        refine ⟨hnew, fun g hg => (hneeds g hg).resolve_right ?_⟩
        rw [hready]
        exact List.not_mem_nil
      · intro p hp
        obtain ⟨q, hq, hwaits, rfl⟩ := mem_remaining_iff.mp hp
        obtain ⟨hnew, hneeds⟩ := hps q hq
        have hlayer := sym_notMem_layer hnodup hq hwaits
        constructor
        · rw [List.mem_append, List.mem_reverse, not_or]
          exact ⟨hlayer, hnew⟩
        · intro g hg
          rw [List.mem_append, List.mem_reverse]
          by_cases hplaced : g ∈ layer ps
          · exact .inl (.inl hplaced)
          · refine (hneeds g hg).imp .inr fun hwait => ?_
            exact List.mem_filter.mpr ⟨hwait, decide_eq_true hplaced⟩

/-- Every operator is placed or left over. -/
theorem mem_place (n : Nat) (hp : p ∈ ps) :
    p.sym ∈ (place n ps).1 ∨ ∃ q ∈ (place n ps).2, q.sym = p.sym := by
  induction n generalizing ps p with
  | zero => exact .inr ⟨p, hp, rfl⟩
  | succ n ih =>
    cases hempty : (layer ps).isEmpty with
    | true =>
      rw [place_of_isEmpty hempty]
      exact .inr ⟨p, hp, rfl⟩
    | false =>
      rw [place_succ hempty]
      by_cases hready : p.waitsFor = []
      · exact .inl (List.mem_append_left _ (mem_layer_iff.mpr ⟨p, hp, hready, rfl⟩))
      · exact (ih (mem_remaining_iff.mpr ⟨p, hp, hready, rfl⟩)).imp_left (List.mem_append_right _)

end Pending

/-! ## The order of operators -/

variable {t : Theory}

theorem mem_ops_iff {f : String} : f ∈ t.ops ↔ ∃ decl, t.ops[f]? = some decl := by
  rw [← Std.ExtTreeMap.isSome_getElem?_iff_mem, Option.isSome_iff_exists]

/-- The declaration of an operator mentions another, or itself. -/
def DependsOn (t : Theory) (f g : String) : Prop :=
  ∃ decl, t.ops[f]? = some decl ∧ g ∈ t.dependencies decl

theorem mem_dependencies_iff {decl : OpDecl} {g : String} : g ∈ t.dependencies decl ↔
    (∃ e ∈ decl.sort :: decl.args, ∃ u : Expr, u.IsSubterm e ∧ u.sym = g) ∧ g ∈ t.ops := by
  unfold dependencies
  simp only [List.mem_filter, Std.ExtTreeSet.mem_toList, Std.ExtTreeSet.mem_ofList,
    List.contains_iff_mem, List.mem_flatMap, Std.ExtTreeMap.contains_iff_mem, Expr.mem_symbols_iff]

theorem mem_pending_iff {p : Pending} : p ∈ t.pending ↔
    ∃ decl, t.ops[p.sym]? = some decl ∧ p.waitsFor = t.dependencies decl := by
  unfold pending
  rw [List.mem_map]
  constructor
  · rintro ⟨⟨sym, decl⟩, hmem, rfl⟩
    exact ⟨decl, Std.ExtTreeMap.mem_toList_iff_getElem?_eq_some.mp hmem, rfl⟩
  · rintro ⟨decl, hdecl, hwaits⟩
    obtain ⟨sym, waits⟩ := p
    cases hwaits
    exact ⟨(sym, decl), Std.ExtTreeMap.mem_toList_iff_getElem?_eq_some.mpr hdecl, rfl⟩

/-- The operators are pending by symbol. -/
theorem map_sym_pending (t : Theory) : t.pending.map (·.sym) = t.ops.keys := by
  rw [← Std.ExtTreeMap.map_fst_toList_eq_keys, pending, List.map_map]
  rfl

theorem nodup_pending (t : Theory) : (t.pending.map (·.sym)).Nodup := by
  rw [map_sym_pending]
  exact Std.ExtTreeMap.nodup_keys

/-- The operators that are placed stand behind those that they depend on. -/
theorem ordered_place_pending (t : Theory) (n : Nat) :
    Ordered t.DependsOn [] (Pending.place n t.pending).1 := by
  refine Pending.ordered_place n (nodup_pending t) fun p hp => ⟨List.not_mem_nil, ?_⟩
  rintro g ⟨decl, hdecl, hg⟩
  obtain ⟨decl', hdecl', hwaits⟩ := mem_pending_iff.mp hp
  cases hdecl.symm.trans hdecl'
  exact .inr (hwaits ▸ hg)

/-- **Every operator is in the order, behind those that it depends on.** -/
theorem ordered_operatorOrder (h : t.operatorOrder = .ok order) :
    Ordered t.DependsOn [] order ∧ ∀ f ∈ t.ops, f ∈ order := by
  unfold operatorOrder at h
  have hordered := ordered_place_pending t t.pending.length
  have hall : ∀ p ∈ t.pending, p.sym ∈ (Pending.place t.pending.length t.pending).1 ∨
      ∃ q ∈ (Pending.place t.pending.length t.pending).2, q.sym = p.sym :=
    fun p hp => Pending.mem_place _ hp
  generalize Pending.place t.pending.length t.pending = placed at h hordered hall
  obtain ⟨syms, stuck⟩ := placed
  cases stuck with
  | cons p stuck => exact absurd h nofun
  | nil =>
    cases h
    refine ⟨hordered, fun f hf => ?_⟩
    obtain ⟨decl, hdecl⟩ := mem_ops_iff.mp hf
    have hpending : (⟨f, t.dependencies decl⟩ : Pending) ∈ t.pending :=
      mem_pending_iff.mpr ⟨decl, hdecl, rfl⟩
    refine (hall _ hpending).resolve_right ?_
    rintro ⟨q, hq, -⟩
    exact absurd hq List.not_mem_nil

end SortedRewriting.Theory
