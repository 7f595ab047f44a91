import Mathlib.Data.List.Sort
import SortedRewriting.Proofs.Expr.Classes
import SortedRewriting.Proofs.Expr.Positions

/-!
# Classes are groups of equal subterms, whatever digests coincide

`Expr.distinctBy` groups positions at two levels: first by the digest at the position, and under
one digest by the subterm that stands at the first position of a group. The groups of all digests
are sorted in the end. The digest of a node is a parameter, so digests may coincide in any way.

* `Expr.Grouped`: the groups of a list of positions are those of each subterm, with the positions in
  the order of the list.
* `Expr.grouped_flatMap`: the groups under all digests are groups of all positions.
* `Expr.inOrder_classes`: positions are in order inside a class, and classes are in the order of
  their representatives.
* **`Expr.distinctBy_eq_classes`**: the two levels lead to the same classes for all digests.
* **`Expr.classified`**: what is found by traversals of an expression.
-/

namespace SortedRewriting.Expr

variable {e t u : Expr} {p q : Position} {ps : List Position} {gs gs' : List (List Position)}
  {ts : List Expr}

/-! ## Comparing positions -/

/-- Positions are compared as lists are ordered. -/
theorem compare_position_eq_lt_iff : compare p q = .lt ↔ p < q := by
  induction p generalizing q with
  | nil =>
    cases q with
    | nil => exact ⟨nofun, fun h => absurd h (List.lt_irrefl [])⟩
    | cons j q => exact ⟨fun _ => List.nil_lt_cons j q, fun _ => rfl⟩
  | cons i p ih =>
    cases q with
    | nil => exact ⟨nofun, fun h => absurd h (List.not_lt_nil _)⟩
    | cons j q =>
      rw [List.compare_cons_cons, Ordering.then_eq_lt, Nat.compare_eq_lt, Nat.compare_eq_eq, ih,
        List.cons_lt_cons_iff]

/-! ## Groups of one digest -/

/-- Adds a position of a subterm to the group whose first member has this subterm, or opens a group
for it at the end. -/
def addTo (e : Expr) (p : Position) (t : Expr) : List (List Position) → List (List Position)
  | [] => [[p]]
  | g :: gs =>
    if g.head?.bind e.subterm? = some t then (g ++ [p]) :: gs else g :: addTo e p t gs

/-- The positions of a list at which a subterm stands. -/
def standing (e : Expr) (ps : List Position) (t : Expr) : List Position :=
  ps.filter (e.subterm? · = some t)

theorem mem_standing_iff : p ∈ standing e ps t ↔ p ∈ ps ∧ e.subterm? p = some t := by
  simp [standing]

/-- The groups of a list of positions are those of each subterm, as they stand in the list. -/
def Grouped (e : Expr) (ps : List Position) (gs : List (List Position)) : Prop :=
  ∃ ts : List Expr, ts.Nodup ∧ (∀ t, t ∈ ts ↔ ∃ p ∈ ps, e.subterm? p = some t) ∧
    gs = ts.map (standing e ps)

theorem grouped_nil : Grouped e [] [] := ⟨[], .nil, by simp, rfl⟩

/-- The groups of a list of positions are determined up to their order. -/
theorem Grouped.perm (h : Grouped e ps gs) (h' : Grouped e ps gs') : gs.Perm gs' := by
  obtain ⟨ts, hnodup, hmem, rfl⟩ := h
  obtain ⟨ts', hnodup', hmem', rfl⟩ := h'
  exact ((List.perm_ext_iff_of_nodup hnodup hnodup').mpr
    fun t => (hmem t).trans (hmem' t).symm).map _

/-- The subterm of a group stands at its first member. -/
theorem head_standing (h : ∃ p ∈ ps, e.subterm? p = some t) :
    (standing e ps t).head?.bind e.subterm? = some t := by
  obtain ⟨p, hp, hpt⟩ := h
  cases hstanding : standing e ps t with
  | nil => exact absurd (hstanding ▸ mem_standing_iff.mpr ⟨hp, hpt⟩) List.not_mem_nil
  | cons q qs =>
    have hq : q ∈ standing e ps t := hstanding ▸ List.mem_cons_self
    exact (mem_standing_iff.mp hq).2

theorem standing_append : standing e (ps ++ [p]) t =
    if e.subterm? p = some t then standing e ps t ++ [p] else standing e ps t := by
  rw [standing, List.filter_append, List.filter_singleton]
  by_cases h : e.subterm? p = some t <;> simp [h, standing]

/-- A position is added to the group of its subterm, and to no other. -/
theorem addTo_map (hp : e.subterm? p = some t) (hts : ts.Nodup)
    (hheads : ∀ u ∈ ts, ∃ q ∈ ps, e.subterm? q = some u) :
    addTo e p t (ts.map (standing e ps)) =
      if t ∈ ts then ts.map (standing e (ps ++ [p])) else ts.map (standing e (ps ++ [p])) ++ [[p]] := by
  have hother : ∀ u, u ≠ t → standing e (ps ++ [p]) u = standing e ps u := fun u hu => by
    rw [standing_append, hp, if_neg fun h => hu (Option.some.inj h).symm]
  induction ts with
  | nil => rfl
  | cons u ts ih =>
    obtain ⟨hu, hts⟩ := List.nodup_cons.mp hts
    obtain ⟨hhead, hheads⟩ := List.forall_mem_cons.mp hheads
    rw [List.map_cons, addTo, head_standing hhead]
    by_cases htu : u = t
    · subst htu
      have hrest : ts.map (standing e ps) = ts.map (standing e (ps ++ [p])) :=
        List.map_congr_left fun v hv => (hother v fun h => hu (h ▸ hv)).symm
      rw [if_pos rfl, if_pos List.mem_cons_self, List.map_cons, standing_append, if_pos hp, hrest]
    · rw [if_neg fun h => htu (Option.some.inj h), ih hts hheads, List.map_cons, hother u htu]
      simp only [List.mem_cons, Ne.symm htu, false_or]
      split <;> rfl

/-- One more position keeps the groups grouped. -/
theorem Grouped.add (h : Grouped e ps gs) (hp : e.subterm? p = some t) :
    Grouped e (ps ++ [p]) (addTo e p t gs) := by
  obtain ⟨ts, hnodup, hmem, rfl⟩ := h
  have hmem' : ∀ u, (∃ q ∈ ps ++ [p], e.subterm? q = some u) ↔ u ∈ ts ∨ u = t := fun u => by
    simp only [List.mem_append, List.mem_singleton, or_and_right, exists_or, exists_eq_left, hmem,
      hp, Option.some.injEq, eq_comm (a := t)]
  rw [addTo_map hp hnodup fun u hu => (hmem u).mp hu]
  by_cases ht : t ∈ ts
  · rw [if_pos ht]
    refine ⟨ts, hnodup, fun u => ?_, rfl⟩
    rw [hmem']
    exact ⟨.inl, fun h => h.elim id fun h => h ▸ ht⟩
  · rw [if_neg ht]
    refine ⟨ts ++ [t], ?_, fun u => ?_, ?_⟩
    · rw [List.nodup_append]
      refine ⟨hnodup, List.nodup_singleton t, ?_⟩
      rintro u hu _ hv rfl
      exact ht (List.mem_singleton.mp hv ▸ hu)
    · rw [hmem', List.mem_append, List.mem_singleton]
    · have hnone : standing e ps t = [] :=
        List.filter_eq_nil_iff.mpr fun q hq hqt => ht ((hmem t).mpr ⟨q, hq, by simpa using hqt⟩)
      rw [List.map_append, List.map_singleton, standing_append, if_pos hp, hnone, List.nil_append]

/-! ## Groups of all digests -/

/-- Groups under their digests. -/
abbrev Groups := Std.ExtTreeMap Digest (List (List Position))

/-- Enters a position under its digest. A position outside the expression opens no group. -/
def groupEntry (e : Expr) (groups : Groups) (entry : Position × Digest) : Groups :=
  let found := groups[entry.2]?.getD []
  match e.subterm? entry.1 with
  | none => groups.insert entry.2 found
  | some t => groups.insert entry.2 (addTo e entry.1 t found)

/-- The groups of equal subterms, by digest and then by subterm, in order. -/
def distinctBy (mix : Kind → String → List Digest → Digest) (e : Expr) : List (List Position) :=
  let groups := (e.digestTable mix).toList.foldl (groupEntry e) ∅
  (groups.toList.flatMap (·.2)).mergeSort fun g g' => (compare g g').isLE

/-- The positions that are entered under a digest. -/
def entriesOf (d : Digest) (entries : List (Position × Digest)) : List Position :=
  (entries.filter (·.2 = d)).map (·.1)

/-- Under each digest stand the groups of the positions that are entered there. -/
def GroupedBy (e : Expr) (entries : List (Position × Digest)) (groups : Groups) : Prop :=
  ∀ d : Digest, Grouped e (entriesOf d entries) (groups[d]?.getD [])

theorem GroupedBy.entry {done : List (Position × Digest)} {groups : Groups}
    {entry : Position × Digest} (h : GroupedBy e done groups)
    (ht : e.subterm? entry.1 = some t) : GroupedBy e (done ++ [entry]) (groupEntry e groups entry) := by
  intro d
  unfold groupEntry entriesOf
  simp only [ht]
  rw [Std.ExtTreeMap.getElem?_insert, List.filter_append, List.map_append]
  by_cases hd : entry.2 = d
  · subst hd
    rw [if_pos Std.ReflCmp.compare_self, List.filter_cons_of_pos (by simp)]
    exact (h entry.2).add ht
  · rw [if_neg fun h => hd (Std.LawfulEqCmp.eq_of_compare h),
      List.filter_cons_of_neg (by simpa using hd), List.filter_nil, List.map_nil, List.append_nil]
    exact h d

theorem GroupedBy.foldl {entries done : List (Position × Digest)} {groups : Groups}
    (h : GroupedBy e done groups) (hentries : ∀ x ∈ entries, ∃ t, e.subterm? x.1 = some t) :
    GroupedBy e (done ++ entries) (entries.foldl (groupEntry e) groups) := by
  induction entries generalizing done groups with
  | nil => rwa [List.append_nil]
  | cons x entries ih =>
    obtain ⟨⟨t, ht⟩, hentries⟩ := List.forall_mem_cons.mp hentries
    rw [List.append_cons]
    exact ih (h.entry ht) hentries

section

variable {entries : List (Position × Digest)} {groups : Groups} {hash : Expr → Digest} {d : Digest}
  (hhash : ∀ x ∈ entries, ∀ t, e.subterm? x.1 = some t → x.2 = hash t)
include hhash

/-- A subterm stands at positions that are entered under its digest only. -/
theorem exists_mem_entriesOf_iff : (∃ p ∈ entriesOf d entries, e.subterm? p = some t) ↔
    d = hash t ∧ ∃ p ∈ entries.map (·.1), e.subterm? p = some t := by
  constructor
  · rintro ⟨p, hp, ht⟩
    obtain ⟨x, hx, rfl⟩ := List.mem_map.mp hp
    obtain ⟨hx, hd⟩ := List.mem_filter.mp hx
    have hd : x.2 = d := of_decide_eq_true hd
    exact ⟨hd.symm.trans (hhash x hx t ht), x.1, List.mem_map_of_mem hx, ht⟩
  · rintro ⟨rfl, p, hp, ht⟩
    obtain ⟨x, hx, rfl⟩ := List.mem_map.mp hp
    refine ⟨x.1, List.mem_map_of_mem (List.mem_filter.mpr ⟨hx, ?_⟩), ht⟩
    exact decide_eq_true (hhash x hx t ht)

/-- Under its digest a subterm stands at all of its positions. -/
theorem standing_entriesOf (hd : d = hash t) :
    standing e (entriesOf d entries) t = standing e (entries.map (·.1)) t := by
  rw [standing, standing, entriesOf, List.filter_map, List.filter_map, List.filter_filter]
  refine congrArg (List.map _) (List.filter_congr fun x hx => ?_)
  by_cases ht : e.subterm? x.1 = some t
  · have hx := (hhash x hx t ht).trans hd.symm
    simp [ht, hx]
  · simp [ht]

/-- **The groups under all digests are groups of all positions**, if equal subterms have one
digest. -/
theorem grouped_flatMap (h : GroupedBy e entries groups) :
    Grouped e (entries.map (·.1)) (groups.toList.flatMap (·.2)) := by
  choose terms hnodup hmem hgroups using h
  have hterm : ∀ d t, t ∈ terms d ↔ d = hash t ∧ ∃ p ∈ entries.map (·.1), e.subterm? p = some t :=
    fun d t => (hmem d t).trans (exists_mem_entriesOf_iff hhash)
  have hgroup : ∀ x ∈ groups.toList, x.2 = (terms x.1).map (standing e (entries.map (·.1))) := by
    intro x hx
    have hget := Std.ExtTreeMap.mem_toList_iff_getElem?_eq_some.mp hx
    have heq := hgroups x.1
    rw [hget, Option.getD_some] at heq
    rw [heq]
    exact List.map_congr_left fun t ht => standing_entriesOf hhash ((hterm x.1 t).mp ht).1
  refine ⟨groups.toList.flatMap fun x => terms x.1, ?_, fun t => ?_, ?_⟩
  · rw [List.nodup_flatMap]
    refine ⟨fun x _ => hnodup x.1, Std.ExtTreeMap.distinct_keys_toList.imp fun {x y} hne t hx hy => ?_⟩
    refine hne ?_
    rw [((hterm _ _).mp hx).1, ((hterm _ _).mp hy).1]
    exact Std.ReflCmp.compare_self
  · rw [List.mem_flatMap]
    constructor
    · rintro ⟨x, -, ht⟩
      exact ((hterm _ _).mp ht).2
    · intro ht
      have ht' := (hterm (hash t) t).mpr ⟨rfl, ht⟩
      cases hget : groups[hash t]? with
      | none =>
        have heq := hgroups (hash t)
        rw [hget, Option.getD_none] at heq
        rw [List.map_eq_nil_iff.mp heq.symm] at ht'
        exact absurd ht' List.not_mem_nil
      | some g => exact ⟨(hash t, g), Std.ExtTreeMap.mem_toList_iff_getElem?_eq_some.mpr hget, ht'⟩
  · rw [List.map_flatMap]
    exact List.flatMap_congr hgroup

end

/-! ## The order of classes -/

namespace SubtermClass

variable {cs : List SubtermClass} {c : SubtermClass} {o : Occurrence}

/-- Positions are in order inside each class, and so are the representatives. -/
structure InOrder (cs : List SubtermClass) : Prop where
  members : ∀ c ∈ cs, c.positions.Pairwise (· < ·)
  representatives : (cs.map (·.representative)).Pairwise (· < ·)

/-- A class that an occurrence is placed in has its position at the end, and the others stay. -/
theorem mem_place (h : c ∈ place cs o) :
    c ∈ cs ∨ c.positions = [o.position] ∨ ∃ c' ∈ cs, c.positions = c'.positions ++ [o.position] := by
  induction cs with
  | nil =>
    cases List.mem_singleton.mp h
    exact .inr (.inl rfl)
  | cons c' cs ih =>
    unfold place at h
    split at h
    · rcases List.mem_cons.mp h with rfl | h
      · exact .inr (.inr ⟨c', List.mem_cons_self, rfl⟩)
      · exact .inl (List.mem_cons_of_mem c' h)
    · rcases List.mem_cons.mp h with rfl | h
      · exact .inl List.mem_cons_self
      · rcases ih h with hc | heq | ⟨c₀, hc₀, heq⟩
        · exact .inl (List.mem_cons_of_mem c' hc)
        · exact .inr (.inl heq)
        · exact .inr (.inr ⟨c₀, List.mem_cons_of_mem c' hc₀, heq⟩)

/-- The members of classes are those from before, and the position that has been placed. -/
theorem mem_positions_place (h : c ∈ place cs o) (hp : p ∈ c.positions) :
    (∃ c' ∈ cs, p ∈ c'.positions) ∨ p = o.position := by
  rcases mem_place h with hc | heq | ⟨c', hc', heq⟩
  · exact .inl ⟨c, hc, hp⟩
  · rw [heq] at hp
    exact .inr (List.mem_singleton.mp hp)
  · rw [heq, List.mem_append, List.mem_singleton] at hp
    exact hp.imp_left fun hp => ⟨c', hc', hp⟩

/-- A new class comes last. -/
theorem representatives_place (cs : List SubtermClass) (o : Occurrence) :
    (place cs o).map (·.representative) = cs.map (·.representative) ∨
      (place cs o).map (·.representative) = cs.map (·.representative) ++ [o.position] := by
  induction cs with
  | nil => exact .inr rfl
  | cons c cs ih =>
    unfold place
    split
    · exact .inl rfl
    · exact ih.imp (congrArg (c.representative :: ·)) (congrArg (c.representative :: ·))

/-- An occurrence behind all others is placed in order. -/
theorem InOrder.place (hcs : InOrder cs) (hlt : ∀ c ∈ cs, ∀ p ∈ c.positions, p < o.position) :
    InOrder (place cs o) := by
  constructor
  · intro c hc
    rcases mem_place hc with hc | heq | ⟨c', hc', heq⟩
    · exact hcs.members c hc
    · rw [heq]
      exact List.pairwise_singleton _ _
    · rw [heq, List.pairwise_append]
      refine ⟨hcs.members c' hc', List.pairwise_singleton _ _, fun p hp q hq => ?_⟩
      cases List.mem_singleton.mp hq
      exact hlt c' hc' p hp
  · rcases representatives_place cs o with heq | heq
    · rw [heq]
      exact hcs.representatives
    · rw [heq, List.pairwise_append]
      refine ⟨hcs.representatives, List.pairwise_singleton _ _, fun p hp q hq => ?_⟩
      cases List.mem_singleton.mp hq
      obtain ⟨c, hc, rfl⟩ := List.mem_map.mp hp
      exact hlt c hc c.representative List.mem_cons_self

theorem InOrder.foldl {os : List Occurrence} (hcs : InOrder cs)
    (hos : os.Pairwise fun o o' => o.position < o'.position)
    (hlt : ∀ c ∈ cs, ∀ p ∈ c.positions, ∀ o ∈ os, p < o.position) :
    InOrder (os.foldl SubtermClass.place cs) := by
  induction os generalizing cs with
  | nil => exact hcs
  | cons o os ih =>
    obtain ⟨ho, hos⟩ := List.pairwise_cons.mp hos
    refine ih (hcs.place fun c hc p hp => hlt c hc p hp o List.mem_cons_self) hos ?_
    intro c hc p hp o' ho'
    rcases mem_positions_place hc hp with ⟨c', hc', hp⟩ | rfl
    · exact hlt c' hc' p hp o' (List.mem_cons_of_mem o ho')
    · exact ho o' ho'

end SubtermClass

/-- **Classes come in order**: positions inside a class, and classes by their representatives. -/
theorem inOrder_classes (e : Expr) : SubtermClass.InOrder e.classes := by
  refine SubtermClass.InOrder.foldl ⟨by simp, .nil⟩ ?_ (by simp)
  have hpositions := pairwise_positions e
  rw [positions, List.pairwise_map] at hpositions
  rw [occurrences_eq, List.pairwise_map]
  exact hpositions

/-- The classes are groups of all positions. -/
theorem grouped_classes (e : Expr) : Grouped e e.positions (e.classes.map (·.positions)) := by
  refine ⟨e.classes.map (·.term), foldl_place_occurrences.1.distinct, fun t => ?_, ?_⟩
  · rw [List.mem_map]
    constructor
    · rintro ⟨c, hc, rfl⟩
      have hp := mem_class_iff.mp ⟨c, hc, rfl, List.mem_cons_self⟩
      exact ⟨c.representative, mem_positions_iff.mpr ⟨_, hp⟩, hp⟩
    · rintro ⟨p, -, ht⟩
      obtain ⟨c, hc, rfl, -⟩ := mem_class_iff.mpr ht
      exact ⟨c, hc, rfl⟩
  · rw [List.map_map]
    refine List.map_congr_left fun c hc => ?_
    refine ((inOrder_classes e).members c hc).eq_of_mem_iff
      ((pairwise_positions e).filter _) fun p => ?_
    rw [Function.comp_apply, mem_standing_iff, mem_positions_iff]
    constructor
    · intro hp
      have ht := mem_class_iff.mp ⟨c, hc, rfl, hp⟩
      exact ⟨⟨_, ht⟩, ht⟩
    · rintro ⟨-, ht⟩
      obtain ⟨c', hc', hterm, hp⟩ := mem_class_iff.mpr ht
      exact class_unique hc' hc hterm ▸ hp

/-! ## Two levels lead to the same classes -/

variable {mix : Kind → String → List Digest → Digest}

/-- The table lists the positions in order, each with the digest of its subterm. -/
theorem toList_digestTable : (e.digestTable mix).toList =
    e.subterms.map fun x => (x.1, x.2.digestBy mix) := by
  let lt (a b : Position × Digest) : Prop := compare a.1 b.1 = .lt
  have : Std.Irrefl lt := ⟨fun a h => absurd (Std.ReflCmp.compare_self.symm.trans h) nofun⟩
  have : Std.Antisymm lt := ⟨fun a b h h' => absurd h' (Std.OrientedCmp.not_lt_of_lt h)⟩
  have htable : (e.digestTable mix).toList.Pairwise lt := Std.ExtTreeMap.ordered_keys_toList
  have hsubterms : (e.subterms.map fun x => (x.1, x.2.digestBy mix)).Pairwise lt := by
    have hpositions := pairwise_positions e
    rw [positions, List.pairwise_map] at hpositions
    rw [List.pairwise_map]
    exact hpositions.imp compare_position_eq_lt_iff.mpr
  refine htable.eq_of_mem_iff hsubterms fun entry => ?_
  obtain ⟨p, d⟩ := entry
  rw [Std.ExtTreeMap.mem_toList_iff_getElem?_eq_some, getElem?_digestTable, List.mem_map,
    Option.map_eq_some_iff]
  constructor
  · rintro ⟨t, ht, rfl⟩
    exact ⟨(p, t), mem_subterms_iff.mpr ht, rfl⟩
  · rintro ⟨⟨q, t⟩, ht, heq⟩
    cases heq
    exact ⟨t, mem_subterms_iff.mp ht, rfl⟩

/-- Sorting puts lists in an order that determines them. -/
theorem mergeSort_eq_of_perm {α : Type} [Ord α] [Std.TransOrd α] [Std.LawfulEqOrd α] {l l' : List α}
    (h : l.Perm l') (h' : l'.Pairwise fun a b => (compare a b).isLE = true) :
    l.mergeSort (fun a b => (compare a b).isLE) = l' := by
  refine List.Perm.eq_of_pairwise (fun a b _ _ hab hba => ?_)
    (List.pairwise_mergeSort (fun a b c => Std.TransCmp.isLE_trans) (fun a b => ?_) l) h'
    ((List.mergeSort_perm l _).trans h)
  · exact Std.LawfulEqCmp.eq_of_compare (Std.OrientedCmp.isLE_antisymm hab hba)
  · have hswap : compare b a = (compare a b).swap := Std.OrientedCmp.eq_swap
    rw [hswap]
    cases compare a b <;> rfl

/-- **Grouping by digest and then by subterm leads to the classes**, whatever the digests are. -/
theorem distinctBy_eq_classes (mix : Kind → String → List Digest → Digest) (e : Expr) :
    e.distinctBy mix = e.classes.map (·.positions) := by
  have hentries : ∀ x ∈ (e.digestTable mix).toList,
      ∃ t, e.subterm? x.1 = some t ∧ x.2 = t.digestBy mix := by
    intro x hx
    have hget := Std.ExtTreeMap.mem_toList_iff_getElem?_eq_some.mp hx
    rw [getElem?_digestTable, Option.map_eq_some_iff] at hget
    obtain ⟨t, ht, hd⟩ := hget
    exact ⟨t, ht, hd.symm⟩
  have hgroups : GroupedBy e (e.digestTable mix).toList
      ((e.digestTable mix).toList.foldl (groupEntry e) ∅) := by
    have hnone : GroupedBy e [] ∅ := fun d => by
      rw [Std.ExtTreeMap.getElem?_empty]
      exact grouped_nil
    exact hnone.foldl fun x hx => (hentries x hx).imp fun _ h => h.1
  have hdigests : ∀ x ∈ (e.digestTable mix).toList, ∀ t, e.subterm? x.1 = some t →
      x.2 = t.digestBy mix := by
    intro x hx t ht
    obtain ⟨u, hu, hd⟩ := hentries x hx
    rw [hd, Option.some.inj (hu.symm.trans ht)]
  have hall := grouped_flatMap hdigests hgroups
  have hpositions : (e.digestTable mix).toList.map (·.1) = e.positions := by
    rw [toList_digestTable, List.map_map]
    rfl
  rw [hpositions] at hall
  refine mergeSort_eq_of_perm (hall.perm (grouped_classes e)) ?_
  -- classes are compared by their representatives, which differ
  have hfirsts := (inOrder_classes e).representatives
  rw [List.pairwise_map] at hfirsts ⊢
  refine hfirsts.imp fun {c c'} hlt => ?_
  rw [SubtermClass.positions, SubtermClass.positions, List.compare_cons_cons,
    compare_position_eq_lt_iff.mpr hlt]
  rfl

/-! ## Traversals of an expression -/

/-- What is found by going through an expression. -/
structure Classified (e : Expr) : Prop where
  /-- A walk with a stack of open subterms meets the positions. -/
  walk : walk [([], e)] = e.positions
  /-- They are the paths to subterms, each listed once, in lexicographic order. -/
  positions : ∀ p, p ∈ e.positions ↔ ∃ t, e.subterm? p = some t
  increasing : e.positions.Pairwise (· < ·)
  /-- The table that is filled in below a path that changes has the digest of each subterm. -/
  table : ∀ p, (e.digestTable nodeDigest)[p]? = (e.subterm? p).map digest
  digests : (e.digestTable nodeDigest).toList = e.positionDigests
  keys : (e.digestTable nodeDigest).keys = e.positions
  /-- Grouping by digest and then by subterm leads to the classes, whatever digests coincide. -/
  grouping : ∀ mix, e.distinctBy mix = e.classes.map (·.positions)
  /-- Every position is in one class, once, and positions of equal subterms are in one class. -/
  partition : (e.classes.flatMap (·.positions)).Perm e.positions
  together : ∀ p q, (∃ c ∈ e.classes, p ∈ c.positions ∧ q ∈ c.positions) ↔
    ∃ t, e.subterm? p = some t ∧ e.subterm? q = some t
  /-- Positions are in order inside a class, and classes are in the order of first positions. -/
  members : ∀ c ∈ e.classes, c.positions.Pairwise (· < ·)
  representatives : (e.classes.map (·.representative)).Pairwise (· < ·)

/-- Each position is in exactly one class. -/
theorem perm_flatMap_classes (e : Expr) :
    (e.classes.flatMap (·.positions)).Perm e.positions := by
  refine (List.perm_ext_iff_of_nodup ?_ (nodup_positions e)).mpr fun p => ?_
  · rw [List.nodup_flatMap]
    refine ⟨fun c hc => ?_, ?_⟩
    · exact ((inOrder_classes e).members c hc).nodup
    · refine (List.pairwise_map.mp foldl_place_occurrences.1.distinct).imp_of_mem
        fun {c c'} hc hc' hne p hp hp' => hne ?_
      exact Option.some.inj ((mem_class_iff.mp ⟨c, hc, rfl, hp⟩).symm.trans
        (mem_class_iff.mp ⟨c', hc', rfl, hp'⟩))
  · rw [List.mem_flatMap, mem_positions_iff]
    constructor
    · rintro ⟨c, hc, hp⟩
      exact ⟨_, mem_class_iff.mp ⟨c, hc, rfl, hp⟩⟩
    · rintro ⟨t, ht⟩
      obtain ⟨c, hc, -, hp⟩ := mem_class_iff.mpr ht
      exact ⟨c, hc, hp⟩

/-- **The classes of an expression are exactly those of equal subterms**, in order, by any
digests. -/
theorem classified (e : Expr) : e.Classified where
  walk := walk_root e
  positions _ := mem_positions_iff
  increasing := pairwise_positions e
  table p := by
    rw [getElem?_digestTable]
    exact congrArg (fun f => (e.subterm? p).map f) (funext digestBy_nodeDigest)
  digests := by
    rw [toList_digestTable, positionDigests, occurrences_eq, List.map_map]
    exact List.map_congr_left fun x _ => congrArg (Prod.mk x.1) (digestBy_nodeDigest x.2)
  keys := by
    rw [← Std.ExtTreeMap.map_fst_toList_eq_keys, toList_digestTable, List.map_map]
    rfl
  grouping mix := distinctBy_eq_classes mix e
  partition := perm_flatMap_classes e
  together p q := by
    constructor
    · rintro ⟨c, hc, hp, hq⟩
      exact ⟨c.term, mem_class_iff.mp ⟨c, hc, rfl, hp⟩, mem_class_iff.mp ⟨c, hc, rfl, hq⟩⟩
    · rintro ⟨t, hp, hq⟩
      obtain ⟨c, hc, hct, hp⟩ := mem_class_iff.mpr hp
      obtain ⟨c', hc', hct', hq⟩ := mem_class_iff.mpr hq
      exact ⟨c, hc, hp, class_unique hc' hc (hct'.trans hct.symm) ▸ hq⟩
  members := (inOrder_classes e).members
  representatives := (inOrder_classes e).representatives

/-- All digests coincide, and the groups are still those of equal subterms: the whole term, one
variable that stands at two positions, the sort of the variables, and the other variable. -/
theorem classified_collision : ∃ (e : Expr) (mix : Kind → String → List Digest → Digest),
    (∀ t u : Expr, t.digestBy mix = u.digestBy mix) ∧
    e.distinctBy mix = [[[]], [[0], [2]], [[0, 0], [1, 0], [2, 0]], [[1]]] := by
  let x : Expr := .node .var "x" [.node .sort "T" []]
  let y : Expr := .node .var "y" [.node .sort "T" []]
  refine ⟨.node .app "f" [x, y, x], fun _ _ _ => Vector.replicate 32 0, ?_, ?_⟩
  · rintro ⟨k, s, as⟩ ⟨k', s', as'⟩
    rfl
  · rw [(classified _).grouping]
    decide +kernel

end SortedRewriting.Expr
