import Mathlib.Data.List.Nodup
import SortedRewriting.Expr.Digest
import SortedRewriting.Proofs.Expr.Subterms

/-!
# Representatives of digests, and classes of equal subterms

* `Expr.representative_sound`, `Expr.exists_representative`: the position on record for a digest
  holds a subterm with that digest, and every digest that occurs has one.
* **`Expr.mem_class_iff`**: a position is in a class of a subterm exactly when that subterm stands
  there, whatever digests coincide.
* `Expr.class_unique`: equal subterms are in one class.
-/

namespace SortedRewriting.Expr

/-- The occurrences are the positions with their subterms and digests. -/
theorem mem_occurrences_iff {e : Expr} {o : Occurrence} :
    o ∈ e.occurrences ↔ e.subterm? o.position = some o.term ∧ o.digest = o.term.digest := by
  rw [occurrences_eq, List.mem_map]
  constructor
  · rintro ⟨⟨p, t⟩, h, rfl⟩
    exact ⟨mem_subterms_iff.mp h, rfl⟩
  · obtain ⟨p, t, d⟩ := o
    rintro ⟨h, hd⟩
    refine ⟨(p, t), mem_subterms_iff.mpr h, ?_⟩
    exact congrArg (Occurrence.mk p t) hd.symm

/-! ## Representatives -/

/-- Keeps the first position of each digest. -/
def keepFirst (reps : Std.ExtTreeMap Digest Position) (o : Occurrence) :
    Std.ExtTreeMap Digest Position := reps.insertIfNew o.digest o.position

theorem foldl_keepFirst_sound {os : List Occurrence} {reps : Std.ExtTreeMap Digest Position}
    {d : Digest} {p : Position} (h : (os.foldl keepFirst reps)[d]? = some p) :
    reps[d]? = some p ∨ ∃ o ∈ os, o.digest = d ∧ o.position = p := by
  induction os generalizing reps with
  | nil => exact .inl h
  | cons o os ih =>
    rcases ih h with h | ⟨o', ho', h⟩
    · rw [keepFirst, Std.ExtTreeMap.getElem?_insertIfNew] at h
      split at h
      · rename_i hd
        cases h
        exact .inr ⟨o, List.mem_cons_self, Std.LawfulEqCmp.eq_of_compare hd.1, rfl⟩
      · exact .inl h
    · exact .inr ⟨o', List.mem_cons_of_mem o ho', h⟩

theorem mem_foldl_keepFirst {os : List Occurrence} {reps : Std.ExtTreeMap Digest Position}
    {d : Digest} (h : d ∈ reps ∨ ∃ o ∈ os, o.digest = d) : d ∈ os.foldl keepFirst reps := by
  induction os generalizing reps with
  | nil =>
    rcases h with h | ⟨o, ho, -⟩
    · exact h
    · exact absurd ho List.not_mem_nil
  | cons o os ih =>
    refine ih ?_
    rw [keepFirst, Std.ExtTreeMap.mem_insertIfNew]
    rcases h with h | ⟨o', ho', rfl⟩
    · exact .inl (.inr h)
    · rcases List.mem_cons.mp ho' with rfl | ho'
      · exact .inl (.inl Std.ReflCmp.compare_self)
      · exact .inr ⟨o', ho', rfl⟩

theorem representative_sound {e : Expr} {d : Digest} {p : Position}
    (h : e.representatives[d]? = some p) : ∃ t, e.subterm? p = some t ∧ t.digest = d := by
  rcases foldl_keepFirst_sound h with h | ⟨o, ho, rfl, rfl⟩
  · simp at h
  · obtain ⟨ht, hd⟩ := mem_occurrences_iff.mp ho
    exact ⟨o.term, ht, hd.symm⟩

theorem exists_representative {t e : Expr} (h : t.IsSubterm e) :
    ∃ p, e.representatives[t.digest]? = some p := by
  obtain ⟨p, hp⟩ := h
  have hmem : t.digest ∈ e.representatives :=
    mem_foldl_keepFirst (.inr ⟨⟨p, t, t.digest⟩, mem_occurrences_iff.mpr ⟨hp, rfl⟩, rfl⟩)
  exact ⟨_, Std.ExtTreeMap.getElem?_eq_some_getElem hmem⟩

/-! ## Classes -/

namespace SubtermClass

/-- A position is listed in a class of the subterm. -/
def Lists (cs : List SubtermClass) (t : Expr) (p : Position) : Prop :=
  ∃ c ∈ cs, c.term = t ∧ p ∈ c.positions

theorem lists_cons_iff {c : SubtermClass} {cs : List SubtermClass} {t : Expr} {p : Position} :
    Lists (c :: cs) t p ↔ (c.term = t ∧ p ∈ c.positions) ∨ Lists cs t p := by
  constructor
  · rintro ⟨c', hc', h⟩
    rcases List.mem_cons.mp hc' with rfl | hc'
    · exact .inl h
    · exact .inr ⟨c', hc', h⟩
  · rintro (h | ⟨c', hc', h⟩)
    · exact ⟨c, List.mem_cons_self, h⟩
    · exact ⟨c', List.mem_cons_of_mem c hc', h⟩

/-- Classes under the digests of their terms, and of distinct terms. -/
structure Proper (cs : List SubtermClass) : Prop where
  digests : ∀ c ∈ cs, c.digest = c.term.digest
  distinct : (cs.map (·.term)).Nodup

theorem Proper.tail {c : SubtermClass} {cs : List SubtermClass} (h : Proper (c :: cs)) :
    Proper cs :=
  ⟨fun c' hc' => h.digests c' (List.mem_cons_of_mem c hc'), (List.nodup_cons.mp h.distinct).2⟩

/-- An occurrence that is placed is listed, besides all that was. -/
theorem lists_place_iff {cs : List SubtermClass} (hcs : Proper cs) {o : Occurrence}
    (ho : o.digest = o.term.digest) {t : Expr} {p : Position} :
    Lists (place cs o) t p ↔ Lists cs t p ∨ (t = o.term ∧ p = o.position) := by
  induction cs with
  | nil => simp [Lists, place, positions, eq_comm]
  | cons c cs ih =>
    have hc := hcs.digests c List.mem_cons_self
    unfold place
    by_cases hterm : c.term = o.term
    · rw [if_pos ⟨by rw [hc, ho, hterm], hterm⟩, lists_cons_iff, lists_cons_iff, or_right_comm]
      refine or_congr_left ?_
      rw [← hterm]
      simp only [positions, List.mem_cons, List.mem_append, List.not_mem_nil, or_false]
      constructor
      · rintro ⟨rfl, rfl | hp | rfl⟩
        · exact .inl ⟨rfl, .inl rfl⟩
        · exact .inl ⟨rfl, .inr hp⟩
        · exact .inr ⟨rfl, rfl⟩
      · rintro (⟨rfl, hp⟩ | ⟨rfl, rfl⟩)
        · exact ⟨rfl, hp.imp_right .inl⟩
        · exact ⟨rfl, .inr (.inr rfl)⟩
    · rw [if_neg fun h => hterm h.2, lists_cons_iff, lists_cons_iff, ih hcs.tail, or_assoc]

theorem terms_place {cs : List SubtermClass} (hcs : Proper cs) {o : Occurrence}
    (ho : o.digest = o.term.digest) : (place cs o).map (·.term) =
      if o.term ∈ cs.map (·.term) then cs.map (·.term) else cs.map (·.term) ++ [o.term] := by
  induction cs with
  | nil => rfl
  | cons c cs ih =>
    have hc := hcs.digests c List.mem_cons_self
    unfold place
    by_cases hterm : c.term = o.term
    · rw [if_pos ⟨by rw [hc, ho, hterm], hterm⟩, if_pos (by simp [hterm])]
      rfl
    · rw [if_neg fun h => hterm h.2, List.map_cons, ih hcs.tail, List.map_cons]
      simp only [List.mem_cons, Ne.symm hterm, false_or]
      split <;> rfl

theorem Proper.place {cs : List SubtermClass} (hcs : Proper cs) {o : Occurrence}
    (ho : o.digest = o.term.digest) : Proper (place cs o) := by
  constructor
  · induction cs with
    | nil => simpa [SubtermClass.place] using ho
    | cons c cs ih =>
      unfold SubtermClass.place
      have hc := hcs.digests c List.mem_cons_self
      split
      · exact List.forall_mem_cons.mpr ⟨hc, hcs.tail.digests⟩
      · exact List.forall_mem_cons.mpr ⟨hc, ih hcs.tail⟩
  · rw [terms_place hcs ho]
    split
    · exact hcs.distinct
    · rename_i hnew
      rw [List.nodup_append]
      refine ⟨hcs.distinct, by simp, ?_⟩
      rintro a ha b hb rfl
      exact hnew (List.mem_singleton.mp hb ▸ ha)

theorem foldl_place {os : List Occurrence} (hos : ∀ o ∈ os, o.digest = o.term.digest)
    {cs : List SubtermClass} (hcs : Proper cs) :
    Proper (os.foldl SubtermClass.place cs) ∧ ∀ t p, Lists (os.foldl SubtermClass.place cs) t p ↔
      Lists cs t p ∨ ∃ o ∈ os, t = o.term ∧ p = o.position := by
  induction os generalizing cs with
  | nil => exact ⟨hcs, fun t p => by simp⟩
  | cons o os ih =>
    obtain ⟨ho, hos⟩ := List.forall_mem_cons.mp hos
    obtain ⟨hproper, hlists⟩ := ih hos (hcs.place ho)
    refine ⟨hproper, fun t p => ?_⟩
    rw [List.foldl_cons, hlists, lists_place_iff hcs ho, or_assoc]
    simp only [List.mem_cons, exists_eq_or_imp]

end SubtermClass

variable {e : Expr}

theorem foldl_place_occurrences : SubtermClass.Proper e.classes ∧ ∀ t p,
    SubtermClass.Lists e.classes t p ↔
      SubtermClass.Lists [] t p ∨ ∃ o ∈ e.occurrences, t = o.term ∧ p = o.position :=
  SubtermClass.foldl_place (fun _ ho => (mem_occurrences_iff.mp ho).2) ⟨by simp, by simp⟩

/-- The positions in the class of a subterm are those at which it stands. -/
theorem mem_class_iff {t : Expr} {p : Position} :
    (∃ c ∈ e.classes, c.term = t ∧ p ∈ c.positions) ↔ e.subterm? p = some t := by
  rw [← SubtermClass.Lists, foldl_place_occurrences.2 t p]
  constructor
  · rintro (⟨c, hc, -⟩ | ⟨o, ho, rfl, rfl⟩)
    · exact absurd hc List.not_mem_nil
    · exact (mem_occurrences_iff.mp ho).1
  · exact fun h => .inr ⟨⟨p, t, t.digest⟩, mem_occurrences_iff.mpr ⟨h, rfl⟩, rfl, rfl⟩

/-- Two classes of one subterm are the same. -/
theorem class_unique {c c' : SubtermClass} (hc : c ∈ e.classes) (hc' : c' ∈ e.classes)
    (h : c.term = c'.term) : c = c' :=
  List.inj_on_of_nodup_map foldl_place_occurrences.1.distinct hc hc' h

end SortedRewriting.Expr
