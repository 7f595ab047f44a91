import SortedRewriting.Proofs.Lists
import SortedRewriting.Proofs.Symbolic.Unfolding

/-!
# A walk meets every node once

`Term.walk` passes over nodes that it has met, so it stops at shared nodes before it has seen their
operands again. While it is at the operands of some nodes, these are *open*: all operands of every
other node that it has met are met as well (`Term.Walk.ClosedBut`). A walk through terms leaves no
node open that was not open before (`Term.Walk.Covers`).

* `Term.walk_covers`: the step, by induction on the term.
* `Term.mem_nodes_iff`: the nodes of a term are those that occur in its unfolding.
* **`Term.mem_calledFunctions_iff`**: the called functions are those that the unfolding applies;
  `Term.nodup_calledFunctions`: each once.
-/

namespace SortedRewriting.Term

variable {a t u : Term} {ts : List Term} {f : String}

/-! ## The walk by operands -/

/-- A property that passes from the operands of a term to the term holds of every term. -/
@[elab_as_elim]
theorem operandsInduction {motive : Term → Prop}
    (step : ∀ t, (∀ a ∈ t.operands, motive a) → motive t) (t : Term) : motive t := by
  refine @Term.rec motive (fun as => ∀ a ∈ as, motive a) ?_ ?_ ?_ ?_ ?_ ?_ ?_ ?_ ?_ ?_ ?_ ?_ nofun
    (fun _ _ ha has => List.forall_mem_cons.mpr ⟨ha, has⟩) t
  -- the operands of each operation have the property by induction
  all_goals
    intros
    exact step _ (by simp_all [operands])

/-- A node is met before its operands. -/
theorem walk_eq (t : Term) (w : Walk) :
    walk t w = if w.seen.contains t then w else walkAll t.operands (w.visit t) := by
  cases t <;> simp only [walk, walkAll, operands]

namespace Walk

/-- The walk has met the node. -/
def Met (w : Walk) (u : Term) : Prop := u ∈ w.visited.toList

/-- The nodes met are recorded in both ways, each once. -/
structure Consistent (w : Walk) : Prop where
  seen_iff : ∀ u, u ∈ w.seen ↔ w.Met u
  nodup : w.visited.toList.Nodup

/-- The operands of every node that is met are met, but for open nodes. -/
def ClosedBut (w : Walk) (opened : Term → Prop) : Prop :=
  ∀ u, w.Met u → opened u ∨ ∀ a ∈ u.operands, w.Met a

/-- A walk through terms goes from one record to another. -/
structure Covers (opened : Term → Prop) (ts : List Term) (w w' : Walk) : Prop where
  consistent : w'.Consistent
  closed : w'.ClosedBut opened
  kept : ∀ u, w.Met u → w'.Met u
  met : ∀ t ∈ ts, w'.Met t
  occurs : ∀ u, w'.Met u → w.Met u ∨ ∃ t ∈ ts, OccursIn u t

variable {w w' w'' : Walk} {opened : Term → Prop}

theorem met_visit_iff : (w.visit t).Met u ↔ w.Met u ∨ u = t := by
  unfold Met visit
  rw [Array.toList_push, List.mem_append, List.mem_singleton]

theorem Consistent.visit (h : w.Consistent) (ht : ¬ w.Met t) : (w.visit t).Consistent where
  seen_iff u := by
    rw [met_visit_iff, ← h.seen_iff]
    unfold Walk.visit
    rw [Std.HashSet.mem_insert, beq_iff_eq, or_comm, eq_comm]
  nodup := by
    unfold Walk.visit
    rw [Array.toList_push, List.nodup_append]
    refine ⟨h.nodup, List.pairwise_singleton _ _, ?_⟩
    rintro u hu v hv rfl
    exact ht (List.mem_singleton.mp hv ▸ hu)

/-- What is met before the operands of a node are: the node itself, which is open from then on. -/
theorem ClosedBut.visit (h : w.ClosedBut opened) :
    (w.visit t).ClosedBut fun u => opened u ∨ u = t := by
  intro u hu
  rcases met_visit_iff.mp hu with hu | rfl
  · exact (h u hu).imp .inl fun hmet a ha => met_visit_iff.mpr (.inl (hmet a ha))
  · exact .inl (.inr rfl)

theorem Covers.refl (hw : w.Consistent) (hc : w.ClosedBut opened) : Covers opened [] w w :=
  ⟨hw, hc, fun _ h => h, fun _ h => absurd h List.not_mem_nil, fun _ h => .inl h⟩

/-- A walk through some terms and one through a term before them. -/
theorem Covers.cons (h : Covers opened ts w w') (h' : Covers opened [a] w' w'') :
    Covers opened (a :: ts) w w'' where
  consistent := h'.consistent
  closed := h'.closed
  kept u hu := h'.kept u (h.kept u hu)
  met := List.forall_mem_cons.mpr ⟨h'.met a List.mem_cons_self, fun t ht => h'.kept t (h.met t ht)⟩
  occurs u hu := by
    rcases h'.occurs u hu with hu | ⟨t, ht, hocc⟩
    · exact (h.occurs u hu).imp_right fun ⟨t, ht, hocc⟩ => ⟨t, List.mem_cons_of_mem a ht, hocc⟩
    · exact .inr ⟨a, List.mem_cons_self, List.mem_singleton.mp ht ▸ hocc⟩

/-- A walk through the operands of a node that has just been met closes it. -/
theorem Covers.close (h : Covers (fun u => opened u ∨ u = t) t.operands (w.visit t) w') :
    Covers opened [t] w w' where
  consistent := h.consistent
  closed u hu := by
    rcases h.closed u hu with (hopen | rfl) | hmet
    · exact .inl hopen
    · exact .inr h.met
    · exact .inr hmet
  kept u hu := h.kept u (met_visit_iff.mpr (.inl hu))
  met := List.forall_mem_singleton.mpr (h.kept t (met_visit_iff.mpr (.inr rfl)))
  occurs u hu := by
    rcases h.occurs u hu with hu | ⟨a, ha, hocc⟩
    · refine (met_visit_iff.mp hu).imp_right ?_
      rintro rfl
      exact ⟨u, List.mem_singleton_self u, .self⟩
    · exact .inr ⟨t, List.mem_singleton_self t, .operand ha hocc⟩

end Walk

/-! ## What a walk meets -/

theorem walkAll_covers {opened : Term → Prop}
    (h : ∀ t ∈ ts, ∀ w : Walk, w.Consistent → w.ClosedBut opened →
      Walk.Covers opened [t] w (walk t w)) (w : Walk) (hw : w.Consistent)
    (hc : w.ClosedBut opened) : Walk.Covers opened ts w (walkAll ts w) := by
  induction ts with
  | nil =>
    rw [walkAll]
    exact .refl hw hc
  | cons a ts ih =>
    obtain ⟨ha, hts⟩ := List.forall_mem_cons.mp h
    have hrest := ih hts
    rw [walkAll]
    exact hrest.cons (ha _ hrest.consistent hrest.closed)

/-- **A walk covers its term**: it meets it and, whatever is open, leaves no other node open. -/
theorem walk_covers (t : Term) : ∀ {opened : Term → Prop} (w : Walk), w.Consistent →
    w.ClosedBut opened → Walk.Covers opened [t] w (walk t w) := by
  induction t using operandsInduction with
  | step t ih =>
    intro opened w hw hc
    rw [walk_eq]
    split
    · rename_i hseen
      have hmet := (hw.seen_iff t).mp (Std.HashSet.mem_iff_contains.mpr hseen)
      exact ⟨hw, hc, fun _ h => h, List.forall_mem_singleton.mpr hmet, fun _ h => .inl h⟩
    · rename_i hnew
      have hnew : ¬ w.Met t := fun hmet =>
        hnew (Std.HashSet.mem_iff_contains.mp ((hw.seen_iff t).mpr hmet))
      exact (walkAll_covers (fun a ha w => ih a ha w) _ (hw.visit hnew) hc.visit).close

/-- The walk from the start of a term leaves nothing open. -/
theorem nodes_covers (t : Term) : Walk.Covers (fun _ => False) [t] ⟨∅, #[]⟩ (walk t ⟨∅, #[]⟩) := by
  refine walk_covers t _ ⟨fun u => ?_, List.nodup_nil⟩ fun u hu => absurd hu List.not_mem_nil
  exact ⟨fun h => absurd h Std.HashSet.not_mem_empty, fun h => absurd h List.not_mem_nil⟩

/-- **The nodes of a term are those of its unfolding.** -/
theorem mem_nodes_iff : u ∈ t.nodes ↔ OccursIn u t := by
  have h := nodes_covers t
  constructor
  · intro hu
    rcases h.occurs u hu with hu | ⟨t', ht', hocc⟩
    · exact absurd hu List.not_mem_nil
    · exact List.mem_singleton.mp ht' ▸ hocc
  · -- from a node that is met, the walk has gone on to all of its operands
    have hmet : ∀ {t'}, OccursIn u t' → t' ∈ t.nodes → u ∈ t.nodes := by
      intro t' hocc
      induction hocc with
      | self => exact fun ht' => ht'
      | operand mem _ ih => exact fun ht' => ih ((h.closed _ ht').resolve_left id _ mem)
    exact fun hocc => hmet hocc (h.met t List.mem_cons_self)

/-- **The called functions are those that the unfolding applies.** -/
theorem mem_calledFunctions_iff : f ∈ t.calledFunctions ↔ t.Applies f := by
  unfold calledFunctions Applies
  rw [List.mem_eraseDups, List.mem_filterMap]
  simp only [mem_nodes_iff]

theorem nodup_calledFunctions (t : Term) : t.calledFunctions.Nodup := nodup_eraseDups _

end SortedRewriting.Term
