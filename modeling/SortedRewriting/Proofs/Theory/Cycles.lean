import Mathlib.Data.Fintype.Card
import Mathlib.Data.Set.Finite.List
import Mathlib.Data.String.Basic
import Mathlib.Logic.Relation
import Mathlib.Order.WellFounded
import SortedRewriting.Proofs.Theory.Elaboration
import SortedRewriting.Proofs.Theory.Order

/-!
# Operators that cannot be ordered

`Theory.Mentions`: one operator depends on another, or on itself, when its result sort or one of its
argument patterns has the other's symbol somewhere.

* `Pending.finishes_place`: there are no more layers than operators, so a limit that admits this
  many is none.
* `Pending.Finishes.stuck_eq`: what is left over waits for nothing that is placed.
* `exists_cycle`: in a finite set, what always leads on leads to a cycle.
* **`Theory.operatorOrder_exact`**: there is an order exactly if there is no cycle; otherwise the
  operators from which a cycle can be reached are reported.
-/

namespace SortedRewriting

open Relation

/-- **In a finite set where everything leads on, everything leads to a cycle.** -/
theorem exists_cycle {α : Type} {r : α → α → Prop} {l : List α} (h : ∀ a ∈ l, ∃ b ∈ l, r a b)
    {a : α} (ha : a ∈ l) : ∃ b, ReflTransGen r a b ∧ TransGen r b b := by
  by_contra hacyclic
  have hirrefl : ∀ b, ReflTransGen r a b → ¬ TransGen r b b := fun b hb hcycle =>
    hacyclic ⟨b, hb, hcycle⟩
  -- without a cycle, reachability is a strict order on what is reached, and has a last element
  let Reached := {b : α // b ∈ l ∧ ReflTransGen r a b}
  let after : Reached → Reached → Prop := fun b c => TransGen r c.1 b.1
  have : Finite Reached := l.finite_toSet.subset fun b hb => hb.1
  have : IsTrans Reached after := ⟨fun b c d hbc hcd => hcd.trans hbc⟩
  have : Std.Irrefl after := ⟨fun b => hirrefl b.1 b.2.2⟩
  obtain ⟨⟨b, hb, hab⟩, -, hlast⟩ := (Finite.wellFounded_of_trans_of_irrefl after).has_min
    Set.univ ⟨⟨a, ha, .refl⟩, trivial⟩
  obtain ⟨c, hc, hbc⟩ := h b hb
  exact hlast ⟨c, hc, hab.tail hbc⟩ trivial (.single hbc)

namespace Theory

variable {needs : String → String → Prop} {done order : List String} {f g : String}

/-! ## Positions in an order -/

theorem Ordered.nodup (h : Ordered needs done order) : order.Nodup := by
  induction h with
  | nil => exact .nil
  | cons _ _ rest ih => exact List.nodup_cons.mpr ⟨rest.notMem List.mem_cons_self, ih⟩

/-- What is needed is done, or stands further in front. -/
theorem Ordered.idxOf_lt (h : Ordered needs done order) (hf : f ∈ order) (hfg : needs f g) :
    g ∈ done ∨ g ∈ order ∧ order.idxOf g < order.idxOf f := by
  induction h with
  | nil => exact absurd hf List.not_mem_nil
  | @cons done x order new needed rest ih =>
    by_cases hx : f = x
    · exact .inl (needed g (hx ▸ hfg))
    · have hidx : (x :: order).idxOf f = order.idxOf f + 1 := List.idxOf_cons_ne _ (Ne.symm hx)
      rcases ih ((List.mem_cons.mp hf).resolve_left hx) with hg | ⟨hg, hlt⟩
      · rcases List.mem_cons.mp hg with rfl | hg
        · rw [hidx, List.idxOf_cons_self]
          exact .inr ⟨List.mem_cons_self, Nat.succ_pos _⟩
        · exact .inl hg
      · by_cases hgx : g = x
        · rw [hgx, hidx, List.idxOf_cons_self]
          exact .inr ⟨List.mem_cons_self, Nat.succ_pos _⟩
        · rw [hidx, List.idxOf_cons_ne _ (Ne.symm hgx)]
          exact .inr ⟨List.mem_cons_of_mem x hg, Nat.succ_lt_succ hlt⟩

/-- An order goes down along everything that is needed, directly or not. -/
theorem Ordered.idxOf_lt_of_transGen (h : Ordered needs [] order) (hf : f ∈ order)
    (hfg : TransGen needs f g) : g ∈ order ∧ order.idxOf g < order.idxOf f := by
  induction hfg with
  | single hfg => exact (h.idxOf_lt hf hfg).resolve_left List.not_mem_nil
  | tail _ hgx ih =>
    obtain ⟨hg, hlt⟩ := ih
    obtain ⟨hx, hlt'⟩ := (h.idxOf_lt hg hgx).resolve_left List.not_mem_nil
    exact ⟨hx, hlt'.trans hlt⟩

/-- Nothing in an order leads to a cycle. -/
theorem Ordered.not_cycle (h : Ordered needs [] order) (hf : f ∈ order)
    (hfg : ReflTransGen needs f g) : ¬ TransGen needs g g := by
  intro hcycle
  have hg : g ∈ order := by
    rcases reflTransGen_iff_eq_or_transGen.mp hfg with rfl | hfg
    · exact hf
    · exact (h.idxOf_lt_of_transGen hf hfg).1
  exact lt_irrefl _ (h.idxOf_lt_of_transGen hg hcycle).2

/-! ## Layers without a limit -/

namespace Pending

variable {ps stuck : List Pending} {p : Pending}

/-- Layers are placed as long as one is not empty, with no limit on their number. -/
inductive Finishes : List Pending → List String → List Pending → Prop
  | stop {ps : List Pending} (hlayer : layer ps = []) : Finishes ps [] ps
  | next {ps stuck : List Pending} {order : List String} (hlayer : layer ps ≠ [])
      (rest : Finishes (remaining ps) order stuck) : Finishes ps (layer ps ++ order) stuck

/-- A layer that is not empty leaves fewer operators. -/
theorem length_remaining_lt (h : layer ps ≠ []) : (remaining ps).length < ps.length := by
  obtain ⟨f, hf⟩ := List.exists_mem_of_ne_nil _ h
  obtain ⟨p, hp, hready, -⟩ := mem_layer_iff.mp hf
  unfold remaining
  rw [List.length_map]
  exact List.length_filter_lt_length_iff_exists.mpr ⟨p, hp, by simp [isReady, hready]⟩

/-- **A limit that admits one layer for each operator is none.** -/
theorem finishes_place {n : Nat} (h : ps.length ≤ n) :
    Finishes ps (place n ps).1 (place n ps).2 := by
  induction n generalizing ps with
  | zero =>
    cases List.length_eq_zero_iff.mp (Nat.le_zero.mp h)
    exact .stop rfl
  | succ n ih =>
    cases hempty : (layer ps).isEmpty with
    | true =>
      rw [place_of_isEmpty hempty]
      exact .stop (List.isEmpty_iff.mp hempty)
    | false =>
      have hlayer : layer ps ≠ [] := List.isEmpty_eq_false_iff.mp hempty
      rw [place_succ hempty]
      exact .next hlayer (ih (Nat.le_of_lt_succ ((length_remaining_lt hlayer).trans_le h)))

theorem Finishes.layer_stuck (h : Finishes ps order stuck) : layer stuck = [] := by
  induction h with
  | stop hlayer => exact hlayer
  | next _ _ ih => exact ih

theorem Finishes.exists_sym (h : Finishes ps order stuck) (hf : f ∈ order) :
    ∃ p ∈ ps, p.sym = f := by
  induction h with
  | stop => exact absurd hf List.not_mem_nil
  | next _ _ ih =>
    rcases List.mem_append.mp hf with hf | hf
    · obtain ⟨p, hp, -, hsym⟩ := mem_layer_iff.mp hf
      exact ⟨p, hp, hsym⟩
    · obtain ⟨p, hp, hsym⟩ := ih hf
      obtain ⟨q, hq, -, rfl⟩ := mem_remaining_iff.mp hp
      exact ⟨q, hq, hsym⟩

theorem without_nil (p : Pending) : p.without [] = p := by
  simp [without]

theorem without_without (placed placed' : List String) (p : Pending) :
    (p.without placed).without placed' = p.without (placed ++ placed') := by
  simp [without, List.filter_filter, Bool.and_comm]

/-- **What is left over is what is not placed, in the order it came in, and waits only for what is
not placed.** -/
theorem Finishes.stuck_eq (h : Finishes ps order stuck) (hnodup : (ps.map (·.sym)).Nodup) :
    stuck = (ps.filter (·.sym ∉ order)).map (without order) := by
  induction h with
  | stop => simp [funext without_nil]
  | @next ps stuck order hlayer rest ih =>
    have hfilter : ps.filter (fun p => p.sym ∉ layer ps ++ order) =
        (ps.filter (!·.isReady)).filter (·.sym ∉ order) := by
      rw [List.filter_filter]
      refine List.filter_congr fun p hp => ?_
      by_cases hready : p.waitsFor = []
      · have hmem : p.sym ∈ layer ps := mem_layer_iff.mpr ⟨p, hp, hready, rfl⟩
        simp [isReady, hready, hmem]
      · simp [isReady, hready, sym_notMem_layer hnodup hp hready]
    rw [ih (nodup_remaining hnodup), hfilter, remaining, List.filter_map, List.map_map]
    exact List.map_congr_left fun p _ => without_without (layer ps) order p

theorem Finishes.mem_stuck_iff (h : Finishes ps order stuck) (hnodup : (ps.map (·.sym)).Nodup) :
    p ∈ stuck ↔ ∃ q ∈ ps, q.sym ∉ order ∧ q.without order = p := by
  simp [h.stuck_eq hnodup, and_assoc]

theorem Finishes.map_sym_stuck (h : Finishes ps order stuck) (hnodup : (ps.map (·.sym)).Nodup) :
    stuck.map (·.sym) = (ps.map (·.sym)).filter (· ∉ order) := by
  rw [h.stuck_eq hnodup, List.filter_map, List.map_map]
  rfl

theorem Finishes.waitsFor_ne_nil (h : Finishes ps order stuck) (hp : p ∈ stuck) :
    p.waitsFor ≠ [] := by
  intro hready
  have hmem : p.sym ∈ layer stuck := mem_layer_iff.mpr ⟨p, hp, hready, rfl⟩
  exact absurd (h.layer_stuck ▸ hmem) List.not_mem_nil

end Pending

/-! ## Cycles -/

variable {t : Theory}

/-- An operator mentions another, or itself: the symbol occurs somewhere in its result sort or in
its argument patterns. -/
def Mentions (t : Theory) (f g : String) : Prop :=
  g ∈ t.ops ∧ ∃ decl, t.ops[f]? = some decl ∧
    ∃ e ∈ decl.sort :: decl.args, ∃ u : Expr, u.IsSubterm e ∧ u.sym = g

theorem dependsOn_eq_mentions (t : Theory) : t.DependsOn = t.Mentions := by
  funext f g
  simp only [DependsOn, Mentions, mem_dependencies_iff, eq_iff_iff]
  exact ⟨fun ⟨decl, hdecl, hocc, hg⟩ => ⟨hg, decl, hdecl, hocc⟩,
    fun ⟨hg, decl, hdecl, hocc⟩ => ⟨decl, hdecl, hocc, hg⟩⟩

/-- An operator from which one gets, from one to the next that it mentions, into a cycle. -/
def ReachesCycle (t : Theory) (f : String) : Prop :=
  ∃ g, ReflTransGen t.Mentions f g ∧ TransGen t.Mentions g g

theorem ReachesCycle.mem_ops (h : t.ReachesCycle f) : f ∈ t.ops := by
  obtain ⟨g, hfg, hcycle⟩ := h
  obtain ⟨x, ⟨-, decl, hdecl, -⟩, -⟩ := TransGen.head'_iff.mp (hcycle.trans_right hfg)
  exact mem_ops_iff.mpr ⟨decl, hdecl⟩

/-- What no layer takes mentions something else that no layer takes. -/
theorem exists_mentions_of_stuck {stuck : List Pending}
    (h : Pending.Finishes t.pending order stuck) (hf : f ∈ t.ops) (hnew : f ∉ order) :
    ∃ g ∈ t.ops, g ∉ order ∧ t.Mentions f g := by
  obtain ⟨decl, hdecl⟩ := mem_ops_iff.mp hf
  let p : Pending := ⟨f, t.dependencies decl⟩
  have hp : p ∈ t.pending := mem_pending_iff.mpr ⟨decl, hdecl, rfl⟩
  have hstuck : p.without order ∈ stuck :=
    (h.mem_stuck_iff (nodup_pending t)).mpr ⟨p, hp, hnew, rfl⟩
  obtain ⟨g, hg⟩ := List.exists_mem_of_ne_nil _ (h.waitsFor_ne_nil hstuck)
  obtain ⟨hdepends, hg⟩ := List.mem_filter.mp hg
  have hmentions : t.Mentions f g := dependsOn_eq_mentions t ▸ ⟨decl, hdecl, hdepends⟩
  exact ⟨g, hmentions.1, of_decide_eq_true hg, hmentions⟩

/-- **No layer takes an operator exactly if a cycle can be reached from it.** -/
theorem reachesCycle_iff {stuck : List Pending} (h : Pending.Finishes t.pending order stuck)
    (hordered : Ordered t.Mentions [] order) : t.ReachesCycle f ↔ f ∈ t.ops ∧ f ∉ order := by
  constructor
  · rintro ⟨g, hfg, hcycle⟩
    exact ⟨ReachesCycle.mem_ops ⟨g, hfg, hcycle⟩, fun hf => hordered.not_cycle hf hfg hcycle⟩
  · rintro ⟨hf, hnew⟩
    refine exists_cycle (l := t.ops.keys.filter (· ∉ order)) (fun f hf => ?_) ?_
    · obtain ⟨hf, hnew⟩ := List.mem_filter.mp hf
      obtain ⟨g, hg, hnew', hfg⟩ := exists_mentions_of_stuck h
        (Std.ExtTreeMap.mem_keys.mp hf) (of_decide_eq_true hnew)
      exact ⟨g, List.mem_filter.mpr ⟨Std.ExtTreeMap.mem_keys.mpr hg, decide_eq_true hnew'⟩, hfg⟩
    · exact List.mem_filter.mpr ⟨Std.ExtTreeMap.mem_keys.mpr hf, decide_eq_true hnew⟩

theorem mem_map_sym_stuck {stuck : List Pending} (h : Pending.Finishes t.pending order stuck) :
    f ∈ stuck.map (·.sym) ↔ f ∈ t.ops ∧ f ∉ order := by
  rw [h.map_sym_stuck (nodup_pending t), map_sym_pending, List.mem_filter, decide_eq_true_iff,
    Std.ExtTreeMap.mem_keys]

/-- Operators are left over by symbol. -/
theorem pairwise_map_sym_stuck {stuck : List Pending}
    (h : Pending.Finishes t.pending order stuck) : (stuck.map (·.sym)).Pairwise (· < ·) := by
  rw [h.map_sym_stuck (nodup_pending t), map_sym_pending]
  exact (Std.ExtTreeMap.ordered_keys.imp compare_lt_iff_lt.mp).filter _

/-- There is no cycle exactly if nothing is left over. -/
theorem acyclic_iff {stuck : List Pending} (h : Pending.Finishes t.pending order stuck)
    (hordered : Ordered t.Mentions [] order) : (∀ f, ¬ TransGen t.Mentions f f) ↔ stuck = [] := by
  rw [← List.map_eq_nil_iff (f := (·.sym)), List.eq_nil_iff_forall_not_mem]
  simp only [mem_map_sym_stuck h, ← reachesCycle_iff h hordered]
  exact ⟨fun hacyclic _ ⟨g, _, hcycle⟩ => hacyclic g hcycle,
    fun hnone f hcycle => hnone f ⟨f, .refl, hcycle⟩⟩

/-- The layers come to an end, and the answer is an order if they have taken all operators. -/
theorem exists_finishes (t : Theory) : ∃ placed stuck, Pending.Finishes t.pending placed stuck ∧
    Ordered t.Mentions [] placed ∧
    t.operatorOrder = if stuck.isEmpty then .ok placed else .error (stuck.map (·.sym)) := by
  have hordered := ordered_place_pending t t.pending.length
  rw [dependsOn_eq_mentions] at hordered
  refine ⟨_, _, Pending.finishes_place le_rfl, hordered, ?_⟩
  unfold operatorOrder
  generalize Pending.place t.pending.length t.pending = placed
  obtain ⟨order, _ | ⟨p, stuck⟩⟩ := placed <;> rfl

/-- **The order of operators is a complete topological sort.** The layers come to an end, with all
operators exactly if no operator depends on itself, directly or not. Then every operator is in the
order once, behind those that it mentions; otherwise the operators from which a cycle can be reached
are reported, by symbol. -/
theorem operatorOrder_exact (t : Theory) :
    (∃ placed stuck, Pending.Finishes t.pending placed stuck ∧
      t.operatorOrder = if stuck.isEmpty then .ok placed else .error (stuck.map (·.sym))) ∧
    ((∃ order, t.operatorOrder = .ok order) ↔ ∀ f, ¬ TransGen t.Mentions f f) ∧
    (∀ order, t.operatorOrder = .ok order → order.Nodup ∧ (∀ f, f ∈ order ↔ f ∈ t.ops) ∧
      ∀ f g, t.Mentions f g → order.idxOf g < order.idxOf f) ∧
    ∀ syms, t.operatorOrder = .error syms →
      syms.Pairwise (· < ·) ∧ ∀ f, f ∈ syms ↔ t.ReachesCycle f := by
  obtain ⟨placed, stuck, hfinishes, hordered, horder⟩ := exists_finishes t
  refine ⟨⟨placed, stuck, hfinishes, horder⟩, ?_⟩
  rw [acyclic_iff hfinishes hordered, horder]
  have hstuck : ∀ f, f ∈ stuck.map (·.sym) ↔ f ∈ t.ops ∧ f ∉ placed := fun f =>
    mem_map_sym_stuck hfinishes
  by_cases hempty : stuck = []
  · subst hempty
    have hplaced : ∀ f, f ∈ placed ↔ f ∈ t.ops := by
      refine fun f => ⟨fun hf => ?_, fun hf => by simpa [hf] using hstuck f⟩
      rw [← Std.ExtTreeMap.mem_keys, ← map_sym_pending]
      exact List.mem_map.mpr (hfinishes.exists_sym hf)
    refine ⟨by simp, ?_, by simp⟩
    rintro order ⟨⟩
    refine ⟨hordered.nodup, hplaced, fun f g hfg => ?_⟩
    obtain ⟨-, decl, hdecl, -⟩ := id hfg
    have hf : f ∈ placed := (hplaced f).mpr (mem_ops_iff.mpr ⟨decl, hdecl⟩)
    exact (hordered.idxOf_lt_of_transGen hf (.single hfg)).2
  · rw [if_neg (by simpa using hempty)]
    refine ⟨by simp [hempty], by simp, ?_⟩
    rintro syms ⟨⟩
    exact ⟨pairwise_map_sym_stuck hfinishes, fun f =>
      (hstuck f).trans (reachesCycle_iff hfinishes hordered).symm⟩

/-- Two operators that mention each other in the sorts of their results, a third one above them, and
a fourth that mentions nothing. The first three are reported. -/
theorem operatorOrder_exact_cycle : ∃ t : Theory, t.Made ∧
    t.operatorOrder = .error ["a", "b", "c"] ∧ (¬ ∀ f, ¬ TransGen t.Mentions f f) ∧
    t.ReachesCycle "a" ∧ t.ReachesCycle "c" ∧ "d" ∈ t.ops ∧ ¬ t.ReachesCycle "d" := by
  let family (a : Expr) : Expr := .node .sort "P" [a]
  let object : Expr := .node .sort "Ob" []
  obtain ⟨t, ht, h⟩ := Theory.exists_made "cyclic"
    [("P", ⟨"P", [.node .var "x" [object]], ""⟩), ("Ob", ⟨"Ob", [], ""⟩)]
    [("a", ⟨"a", family (.node .app "b" []), [], ""⟩),
      ("b", ⟨"b", family (.node .app "a" []), [], ""⟩),
      ("c", ⟨"c", object, [.node .var "x" [family (.node .app "b" [])]], ""⟩),
      ("d", ⟨"d", object, [], ""⟩)]
    [] (P := fun t => decide (t.operatorOrder = .error ["a", "b", "c"]) && t.ops.contains "d")
    (by decide +kernel)
  obtain ⟨h, hd⟩ := Bool.and_eq_true_iff.mp h
  have h := of_decide_eq_true h
  obtain ⟨-, hacyclic, -, hsyms⟩ := operatorOrder_exact t
  have hcycle : ∀ f, f ∈ ["a", "b", "c"] ↔ t.ReachesCycle f := (hsyms _ h).2
  refine ⟨t, ht, h, fun hnone => ?_, (hcycle "a").mp (by decide), (hcycle "c").mp (by decide),
    Std.ExtTreeMap.contains_iff_mem.mp hd, mt (hcycle "d").mpr (by decide)⟩
  obtain ⟨order, horder⟩ := hacyclic.mpr hnone
  cases h.symm.trans horder

end Theory

end SortedRewriting
