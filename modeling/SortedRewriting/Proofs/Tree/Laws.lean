import SortedRewriting.Proofs.Tree.Replacing

/-!
# The laws of path access

Two paths are *incomparable* (`Path.Incomparable`) if neither leads through the other. A tree is
`x` *with `y` at* a path (`Tree.IsReplacement`) if `y` stands there, every subtree at an
incomparable path is that of `x`, and every node above has its tag and its number of slots as in
`x`.

* `Tree.getAt_replaceAt_append`: a replacement below a path is one in the subtree there.
* `Tree.getAt_replaceAt_of_incomparable`: a replacement does not show at an incomparable path.
* **`Tree.ErrorFree.replaceAt_comm`**: replacements at incomparable paths commute, also where one
  fails.
* **`Tree.access_laws`**: reading and writing at the paths of a tree without errors.
-/

namespace SortedRewriting

/-- Neither path is a beginning of the other. -/
def Path.Incomparable (p q : Path) : Prop := ¬ p <+: q ∧ ¬ q <+: p

namespace Path

variable {p q : Path} {i j : Nat}

instance : Decidable (Path.Incomparable p q) := inferInstanceAs (Decidable (_ ∧ _))

theorem Incomparable.symm (h : Path.Incomparable p q) : Path.Incomparable q p := ⟨h.2, h.1⟩

theorem not_incomparable_nil : ¬ Path.Incomparable [] q := fun h => h.1 List.nil_prefix

theorem Incomparable.ne_nil (h : Path.Incomparable p q) : p ≠ [] := fun hp =>
  not_incomparable_nil (hp ▸ h)

/-- Paths part at once or later. -/
theorem incomparable_cons_iff :
    Path.Incomparable (i :: p) (j :: q) ↔ i ≠ j ∨ Path.Incomparable p q := by
  unfold Path.Incomparable
  rw [List.cons_prefix_cons, List.cons_prefix_cons, eq_comm (a := j)]
  by_cases hij : i = j <;> simp [hij]

end Path

namespace Tree

variable {x y z : Tree} {p q r : Path} {i : Nat}

/-! ## What stands where after a replacement -/

/-- Nothing can be replaced in an error. -/
theorem replaceAt_of_error (hp : p ≠ []) : error.replaceAt p y = error := by
  cases p with
  | nil => exact absurd rfl hp
  | cons i p => rfl

/-- A replacement below a path is one in the subtree at that path. -/
theorem getAt_replaceAt_append (h : x.replaceAt (r ++ p) y ≠ error) :
    (x.getAt r).replaceAt p y ≠ error ∧
      (x.replaceAt (r ++ p) y).getAt r = (x.getAt r).replaceAt p y := by
  induction r generalizing x with
  | nil => exact ⟨h, rfl⟩
  | cons i r ih =>
    rw [List.cons_append] at h ⊢
    obtain ⟨t, cs, -, hi, hchild, heq⟩ := exists_node_of_replaceAt h
    obtain ⟨hne, hget⟩ := ih hchild
    refine ⟨hne, ?_⟩
    rw [heq, getAt_cons, child_node, List.getElem?_set_self hi]
    exact hget

/-- **The frame**: a replacement does not show at an incomparable path. -/
theorem getAt_replaceAt_of_incomparable (h : x.replaceAt p y ≠ error)
    (hpq : Path.Incomparable p q) : (x.replaceAt p y).getAt q = x.getAt q := by
  induction p generalizing x q with
  | nil => exact absurd hpq Path.not_incomparable_nil
  | cons i p ih =>
    obtain ⟨t, cs, rfl, hi, hchild, heq⟩ := exists_node_of_replaceAt h
    rw [heq]
    cases q with
    | nil => exact absurd hpq.symm Path.not_incomparable_nil
    | cons j q =>
      rw [getAt_cons, getAt_cons, child_node]
      by_cases hij : i = j
      · subst hij
        rw [List.getElem?_set_self hi, Option.getD_some]
        exact ih hchild ((Path.incomparable_cons_iff.mp hpq).resolve_left fun h => h rfl)
      · rw [List.getElem?_set_ne hij, child_node]

/-- Both are nodes, of one tag and with as many slots. -/
def SameNode (x y : Tree) : Prop :=
  ∃ t cs cs', x = node t cs ∧ y = node t cs' ∧ cs'.length = cs.length

/-- Above the path of a replacement, nodes keep their tags and their numbers of slots. -/
theorem sameNode_replaceAt (h : x.replaceAt p y ≠ error) (hr : r <+: p) (hne : r ≠ p) :
    SameNode (x.getAt r) ((x.replaceAt p y).getAt r) := by
  obtain ⟨s, rfl⟩ := hr
  obtain ⟨hsub, hget⟩ := getAt_replaceAt_append h
  rw [hget]
  cases s with
  | nil => exact absurd (List.append_nil r).symm hne
  | cons i s =>
    obtain ⟨t, cs, hx, -, -, heq⟩ := exists_node_of_replaceAt hsub
    exact ⟨t, cs, _, hx, heq, List.length_set⟩

/-- `x'` is `x` with `y` at the path. -/
structure IsReplacement (x : Tree) (p : Path) (y x' : Tree) : Prop where
  there : x'.getAt p = y
  elsewhere : ∀ q, Path.Incomparable p q → x'.getAt q = x.getAt q
  above : ∀ r, r <+: p → r ≠ p → SameNode (x.getAt r) (x'.getAt r)

theorem isReplacement_replaceAt (h : x.replaceAt p y ≠ error) :
    x.IsReplacement p y (x.replaceAt p y) where
  there := getAt_replaceAt h
  elsewhere _ := getAt_replaceAt_of_incomparable h
  above _ := sameNode_replaceAt h

/-! ## Trees without errors -/

/-- A replacement by a tree that is no error fails exactly where there is nothing to replace. -/
theorem ErrorFree.replaceAt_eq_error_iff (hx : x.ErrorFree) (hy : y ≠ error) :
    x.replaceAt p y = error ↔ x.getAt p = error := by
  induction p generalizing x with
  | nil => exact ⟨fun h => absurd h hy, fun h => absurd h hx.ne_error⟩
  | cons i p ih =>
    cases hx with
    | @node t cs children =>
      rw [getAt_cons, child_node]
      by_cases hi : i < cs.length
      · rw [replaceAt_node (error_not_mem children) hi, List.getElem?_eq_getElem hi,
          Option.getD_some, ← ih (children _ (List.getElem_mem hi))]
        split
        · rename_i he
          exact ⟨fun _ => he, fun _ => rfl⟩
        · rename_i he
          exact ⟨nofun, fun h => absurd h he⟩
      · rw [List.getElem?_eq_none (Nat.le_of_not_lt hi), replaceAt, if_neg hi]
        exact ⟨fun _ => getAt_error p, fun _ => rfl⟩
    | vacant => exact ⟨fun _ => getAt_error p, fun _ => rfl⟩

/-- Two replacements in one slot. -/
theorem replaceAt_node_twice {t : Int64} {cs : List Tree} (hcs : error ∉ cs) (hi : i < cs.length)
    (hq : q ≠ []) : ((node t cs).replaceAt (i :: p) y).replaceAt (i :: q) z =
      if (cs[i].replaceAt p y).replaceAt q z = error then error
      else node t (cs.set i ((cs[i].replaceAt p y).replaceAt q z)) := by
  rw [replaceAt_node hcs hi]
  split
  · rename_i he
    rw [he, replaceAt_of_error hq, if_pos rfl, replaceAt_of_error (List.cons_ne_nil i q)]
  · rename_i he
    rw [replaceAt_node (error_not_mem_set hcs he i) (by rwa [List.length_set]),
      List.getElem_set_self, List.set_set]

/-- Replacements in two slots. -/
theorem replaceAt_node_apart {t : Int64} {cs : List Tree} {j : Nat} (hcs : error ∉ cs)
    (hij : i ≠ j) (hi : i < cs.length) (hj : j < cs.length) :
    ((node t cs).replaceAt (i :: p) y).replaceAt (j :: q) z =
      if cs[i].replaceAt p y = error ∨ cs[j].replaceAt q z = error then error
      else node t ((cs.set i (cs[i].replaceAt p y)).set j (cs[j].replaceAt q z)) := by
  rw [replaceAt_node hcs hi]
  split
  · rename_i he
    rw [if_pos (.inl he), replaceAt_of_error (List.cons_ne_nil j q)]
  · rename_i he
    rw [replaceAt_node (error_not_mem_set hcs he i) (by rwa [List.length_set]),
      List.getElem_set_ne hij]
    simp only [he, false_or]

/-- A slot that is missing is missing after another replacement as well. -/
theorem replaceAt_node_outside {t : Int64} {cs : List Tree} {j : Nat} (hcs : error ∉ cs)
    (hj : ¬ j < cs.length) : ((node t cs).replaceAt (i :: p) y).replaceAt (j :: q) z = error := by
  by_cases hi : i < cs.length
  · rw [replaceAt_node hcs hi]
    split
    · rfl
    · rw [replaceAt, List.length_set, if_neg hj]
  · rw [replaceAt, if_neg hi]
    rfl

/-- **Replacements at incomparable paths commute.** -/
theorem ErrorFree.replaceAt_comm (hx : x.ErrorFree) (hpq : Path.Incomparable p q) :
    (x.replaceAt p y).replaceAt q z = (x.replaceAt q z).replaceAt p y := by
  induction p generalizing x q with
  | nil => exact absurd hpq Path.not_incomparable_nil
  | cons i p ih =>
    cases q with
    | nil => exact absurd hpq.symm Path.not_incomparable_nil
    | cons j q =>
      cases hx with
      | @node t cs children =>
        have hcs := error_not_mem children
        by_cases hi : i < cs.length
        · by_cases hj : j < cs.length
          · by_cases hij : i = j
            · subst hij
              have hpq := (Path.incomparable_cons_iff.mp hpq).resolve_left fun h => h rfl
              rw [replaceAt_node_twice hcs hi hpq.symm.ne_nil,
                replaceAt_node_twice hcs hi hpq.ne_nil, ih (children _ (List.getElem_mem hi)) hpq]
            · rw [replaceAt_node_apart hcs hij hi hj, replaceAt_node_apart hcs (Ne.symm hij) hj hi,
                List.set_comm _ _ hij]
              simp only [or_comm]
          · rw [replaceAt_node_outside hcs hj, replaceAt, if_neg hj]
            rfl
        · rw [replaceAt_node_outside hcs hi, replaceAt, if_neg hi]
          rfl
      | vacant => rfl

/-- Neither of two replacements at incomparable paths makes the other fail. -/
theorem ErrorFree.replaceAt_replaceAt_ne_error (hx : x.ErrorFree) (hpq : Path.Incomparable p q)
    (hp : x.replaceAt p y ≠ error) (hq : x.replaceAt q z ≠ error) :
    (x.replaceAt p y).replaceAt q z ≠ error := by
  induction p generalizing x q with
  | nil => exact absurd hpq Path.not_incomparable_nil
  | cons i p ih =>
    cases q with
    | nil => exact absurd hpq.symm Path.not_incomparable_nil
    | cons j q =>
      obtain ⟨t, cs, rfl, hi, hpi, -⟩ := exists_node_of_replaceAt hp
      obtain ⟨_, _, hnode, hj, hqj, -⟩ := exists_node_of_replaceAt hq
      cases hnode
      rw [child_node, List.getElem?_eq_getElem hi, Option.getD_some] at hpi
      rw [child_node, List.getElem?_eq_getElem hj, Option.getD_some] at hqj
      cases hx with
      | node children =>
        have hcs := error_not_mem children
        by_cases hij : i = j
        · subst hij
          have hpq := (Path.incomparable_cons_iff.mp hpq).resolve_left fun h => h rfl
          rw [replaceAt_node_twice hcs hi hpq.symm.ne_nil,
            if_neg (ih (children _ (List.getElem_mem hi)) hpq hpi hqj)]
          nofun
        · rw [replaceAt_node_apart hcs hij hi hj, if_neg (not_or.mpr ⟨hpi, hqj⟩)]
          nofun

/-- **Reading and writing.** In a tree without errors, a write fails exactly where a read does.
Where it does not fail it is a replacement, writing back what was read changes nothing, the second
of two writes counts, and writes at incomparable paths succeed in either order, with one result. A
read may stop on its way along a path. -/
theorem access_laws (hx : x.ErrorFree) (hy : y ≠ error) (hz : z ≠ error) (p : Path) :
    (x.replaceAt p y = error ↔ x.getAt p = error) ∧
    (x.getAt p ≠ error →
      x.IsReplacement p y (x.replaceAt p y) ∧
      x.replaceAt p (x.getAt p) = x ∧
      (x.replaceAt p y).replaceAt p z = x.replaceAt p z ∧
      ∀ q, Path.Incomparable p q → x.getAt q ≠ error →
        (x.replaceAt p y).replaceAt q z ≠ error ∧
          (x.replaceAt p y).replaceAt q z = (x.replaceAt q z).replaceAt p y) ∧
    ∀ q, x.getAt (p ++ q) = (x.getAt p).getAt q := by
  refine ⟨hx.replaceAt_eq_error_iff hy, fun hp => ?_, getAt_append x p⟩
  have hne : x.replaceAt p y ≠ error := mt (hx.replaceAt_eq_error_iff hy).mp hp
  refine ⟨isReplacement_replaceAt hne, hx.replaceAt_getAt hp, replaceAt_replaceAt hne, ?_⟩
  intro q hpq hq
  have hne' : x.replaceAt q z ≠ error := mt (hx.replaceAt_eq_error_iff hz).mp hq
  exact ⟨hx.replaceAt_replaceAt_ne_error hpq hne hne', hx.replaceAt_comm hpq⟩

/-- A node with a node in the first of two slots. -/
def twoSlots : Tree := node 5 [node 7 [vacant], vacant]

theorem errorFree_twoSlots : twoSlots.ErrorFree := by
  refine .node fun c hc => ?_
  simp only [List.mem_cons, List.not_mem_nil, or_false] at hc
  rcases hc with rfl | rfl
  · exact .node fun c hc => by
      cases List.mem_singleton.mp hc
      exact .vacant
  · exact .vacant

/-- Its slots are filled in either order. -/
theorem access_twoSlots : twoSlots.ErrorFree ∧
    twoSlots.IsReplacement [0, 0] (node 9 []) (node 5 [node 7 [node 9 []], vacant]) ∧
    (twoSlots.replaceAt [0, 0] (node 9 [])).replaceAt [1] (node 3 []) =
      (twoSlots.replaceAt [1] (node 3 [])).replaceAt [0, 0] (node 9 []) := by
  obtain ⟨-, hlaws, -⟩ := access_laws (y := node 9 []) (z := node 3 []) errorFree_twoSlots
    nofun nofun [0, 0]
  obtain ⟨hreplaced, -, -, hcomm⟩ := hlaws (by decide)
  exact ⟨errorFree_twoSlots, hreplaced, (hcomm [1] (by decide) (by decide)).2⟩

end Tree

end SortedRewriting
