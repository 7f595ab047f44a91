import SortedRewriting.Proofs.Tree.Shape

/-!
# Replacing subtrees

* `Tree.exists_node_of_replaceAt`: where a replacement inside a tree leads to no error, there is a
  slot for it, and no other slot is touched.
* `Tree.getAt_replaceAt`, `Tree.replaceAt_replaceAt`, `Tree.ErrorFree.replaceAt_getAt`: what is read
  after a write, a second write at the same path, and a write of what stands there.
* **`Tree.Canonical.replaceAt`**: canonical trees, whose vacant slots stand behind their children,
  stay canonical when a node is replaced.
-/

namespace SortedRewriting.Tree

variable {width : Nat} {x y z : Tree} {i : Nat} {p : Path}

/-! ## Reading after writing -/

/-- A replacement inside a tree fills one slot of a node. -/
theorem exists_node_of_replaceAt (h : x.replaceAt (i :: p) y ≠ error) :
    ∃ t cs, x = node t cs ∧ i < cs.length ∧ (x.child i).replaceAt p y ≠ error ∧
      x.replaceAt (i :: p) y = node t (cs.set i ((x.child i).replaceAt p y)) := by
  cases x with
  | node t cs =>
    rw [replaceAt] at h ⊢
    by_cases hi : i < cs.length
    · rw [if_pos hi] at h ⊢
      have hcs := (build_ne_error h).2
      refine ⟨t, cs, rfl, hi, fun he => hcs (he ▸ List.mem_set hi _), ?_⟩
      have hfull := build_length (t := t) hcs
      rwa [List.length_set] at hfull
    · rw [if_neg hi] at h
      exact absurd rfl h
  | vacant => exact absurd rfl h
  | error => exact absurd rfl h

/-- What is put at a path stands there. -/
theorem getAt_replaceAt (h : x.replaceAt p y ≠ error) : (x.replaceAt p y).getAt p = y := by
  induction p generalizing x with
  | nil => rfl
  | cons i p ih =>
    obtain ⟨t, cs, -, hi, hchild, heq⟩ := exists_node_of_replaceAt h
    rw [heq, getAt_cons, child_node, List.getElem?_set_self hi]
    exact ih hchild

/-- The second of two replacements at a path counts. -/
theorem replaceAt_replaceAt (h : x.replaceAt p y ≠ error) :
    (x.replaceAt p y).replaceAt p z = x.replaceAt p z := by
  induction p generalizing x with
  | nil => rfl
  | cons i p ih =>
    obtain ⟨t, cs, hx, hi, hchild, heq⟩ := exists_node_of_replaceAt h
    subst hx
    rw [heq, replaceAt, replaceAt, List.length_set, if_pos hi, if_pos hi, List.set_set, child_node,
      List.getElem?_set_self hi, Option.getD_some, ih hchild]

theorem error_not_mem {cs : List Tree} (h : ∀ c ∈ cs, c.ErrorFree) : error ∉ cs :=
  fun he => (h _ he).ne_error rfl

theorem error_not_mem_set {cs : List Tree} (hcs : error ∉ cs) (hy : y ≠ error) (i : Nat) :
    error ∉ cs.set i y := fun he =>
  (List.mem_or_eq_of_mem_set he).elim hcs hy.symm

/-- A replacement in a slot of a node without errors: one below it makes the whole an error. -/
theorem replaceAt_node {t : Int64} {cs : List Tree} (hcs : error ∉ cs) (hi : i < cs.length) :
    (node t cs).replaceAt (i :: p) y =
      if cs[i].replaceAt p y = error then error else node t (cs.set i (cs[i].replaceAt p y)) := by
  rw [replaceAt, if_pos hi, child_node, List.getElem?_eq_getElem hi, Option.getD_some]
  split
  · rename_i he
    rw [build_eq_error_iff, he]
    exact .inr (List.mem_set hi error)
  · rename_i he
    have hfull := build_length (t := t) (error_not_mem_set hcs he i)
    rwa [List.length_set] at hfull

/-- Putting back what stands at a path changes nothing. -/
theorem ErrorFree.replaceAt_getAt (hx : x.ErrorFree) (hp : x.getAt p ≠ Tree.error) :
    x.replaceAt p (x.getAt p) = x := by
  induction p generalizing x with
  | nil => rfl
  | cons i p ih =>
    cases hx with
    | @node t cs children =>
      rw [getAt_cons, child_node] at hp ⊢
      by_cases hi : i < cs.length
      · rw [List.getElem?_eq_getElem hi, Option.getD_some] at hp ⊢
        have hchild := children _ (List.getElem_mem hi)
        rw [replaceAt_node (error_not_mem children) hi, ih hchild hp,
          if_neg hchild.ne_error, List.set_getElem_self]
      · rw [List.getElem?_eq_none (Nat.le_of_not_lt hi), Option.getD_none, getAt_error] at hp
        exact absurd rfl hp
    | vacant => exact absurd (getAt_error p) hp

/-- A regular tree in the place of a subtree of a regular tree. -/
theorem Regular.replaceAt (hx : x.Regular width) (hy : y.Regular width)
    (h : x.replaceAt p y ≠ Tree.error) : (x.replaceAt p y).Regular width := by
  induction p generalizing x with
  | nil => exact hy
  | cons i p ih =>
    obtain ⟨t, cs, hnode, hi, hchild, heq⟩ := exists_node_of_replaceAt h
    rw [heq]
    subst hnode
    cases hx with
    | node slots children =>
      refine .node (by rw [List.length_set, slots]) fun c hc => ?_
      rcases List.mem_or_eq_of_mem_set hc with hc | rfl
      · exact children c hc
      · rw [child_node, List.getElem?_eq_getElem hi] at hchild ⊢
        exact ih (children _ (List.getElem_mem hi)) hchild

/-! ## Canonical trees -/

/-- A node with `width` slots: the trees of its children first, and vacant slots behind them. -/
inductive Canonical (width : Nat) : Tree → Prop
  | node {t : Int64} {cs : List Tree} {unused : Nat} (slots : cs.length + unused = width)
      (children : ∀ c ∈ cs, Canonical width c) :
      Canonical width (.node t (cs ++ List.replicate unused .vacant))

theorem Canonical.isNode (h : x.Canonical width) : x.isNode = true := by
  cases h
  rfl

theorem Canonical.regular (h : x.Canonical width) : x.Regular width := by
  induction h with
  | @node t cs unused slots _ ih =>
    refine .node (by simpa using slots) fun c hc => ?_
    rcases List.mem_append.mp hc with hc | hc
    · exact ih c hc
    · rw [(List.mem_replicate.mp hc).2]
      exact .vacant

/-- A node stands in a slot before the vacant ones. -/
theorem lt_of_isNode_child {t : Int64} {cs : List Tree} {unused : Nat}
    (h : ((node t (cs ++ List.replicate unused vacant)).child i).isNode = true) :
    i < cs.length := by
  refine Nat.lt_of_not_le fun hle => ?_
  rw [child_node, List.getElem?_append_right hle, List.getElem?_replicate] at h
  split at h <;> exact absurd h Bool.false_ne_true

/-- In a canonical tree, the node in a slot is one of the children. -/
theorem Canonical.child (h : x.Canonical width) (hi : (x.child i).isNode = true) :
    (x.child i).Canonical width := by
  cases h with
  | @node t cs unused slots children =>
    have hlt := lt_of_isNode_child hi
    rw [child_node, List.getElem?_append_left hlt, List.getElem?_eq_getElem hlt]
    exact children _ (List.getElem_mem hlt)

theorem Canonical.getAt (h : x.Canonical width) (hp : (x.getAt p).isNode = true) :
    (x.getAt p).Canonical width := by
  induction p generalizing x with
  | nil => exact h
  | cons i p ih =>
    exact ih (h.child (isNode_child hp)) hp

/-- A node that is built from canonical children is canonical. -/
theorem canonical_build {t : Int64} {cs : List Tree} (h : ∀ c ∈ cs, c.Canonical width)
    (hlen : cs.length ≤ width) : (build t cs width).Canonical width := by
  rw [build_eq_node hlen fun he => (h _ he).regular.ne_error rfl]
  exact .node (by omega) h

/-- **A node of a canonical tree may be replaced by a canonical tree.** -/
theorem Canonical.replaceAt (hx : x.Canonical width) (hy : y.Canonical width)
    (hp : (x.getAt p).isNode = true) : (x.replaceAt p y).Canonical width := by
  induction p generalizing x with
  | nil => exact hy
  | cons i p ih =>
    have hi := isNode_child hp
    have hnew := ih (hx.child hi) hp
    cases hx with
    | @node t cs unused slots children =>
      have hlt := lt_of_isNode_child hi
      generalize hz : ((Tree.node t (cs ++ List.replicate unused vacant)).child i).replaceAt p y = z
        at hnew
      have hset : ∀ c ∈ cs.set i z, c.Canonical width := by
        intro c hc
        rcases List.mem_or_eq_of_mem_set hc with hc | rfl
        · exact children c hc
        · exact hnew
      have herror : error ∉ cs.set i z ++ List.replicate unused vacant := by
        intro he
        rcases List.mem_append.mp he with he | he
        · exact (hset _ he).regular.ne_error rfl
        · exact absurd (List.mem_replicate.mp he).2 nofun
      have hlen : (cs ++ List.replicate unused vacant).length =
          (cs.set i z ++ List.replicate unused vacant).length := by simp
      rw [Tree.replaceAt, if_pos (by simp; omega), hz, List.set_append_left _ _ hlt, hlen,
        build_length herror]
      exact .node (by rw [List.length_set, slots]) hset

end SortedRewriting.Tree
