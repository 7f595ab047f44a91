import SortedRewriting.Tree.Basic

/-!
# Selecting, rebuilding, and the shape of trees

`Tree.Uniform width` trees have `width` slots at every node, `Tree.ErrorFree` trees hold no error,
and `Tree.Regular width` trees are both. `Tree.rebuild` puts a tree at a path in the way that a
symbolic term does it, slot by slot, and `Tree.Occurs` says that a code tags some node.

* `Tree.getAt_append`: selection goes along a path in stages.
* **`Tree.rebuild_eq_replaceAt`**: on uniform trees of two slots or more, `rebuild` is `replaceAt`
  for every path that stays inside the slots.
* `Tree.occurs_rebuild`: rebuilding brings in no codes but those of the two trees, and zero.
-/

namespace SortedRewriting.Tree

/-! ## Selecting -/

@[simp] theorem child_node (t : Int64) (cs : List Tree) (i : Nat) :
    (node t cs).child i = cs[i]?.getD error := rfl

@[simp] theorem child_vacant (i : Nat) : vacant.child i = error := rfl

@[simp] theorem child_error (i : Nat) : error.child i = error := rfl

/-- Only a node has a child that is no error. -/
theorem exists_node_of_child {x : Tree} {i : Nat} (h : x.child i ≠ error) :
    ∃ t cs, x = node t cs := by
  cases x with
  | node t cs => exact ⟨t, cs, rfl⟩
  | vacant => exact absurd rfl h
  | error => exact absurd rfl h

@[simp] theorem getAt_nil (x : Tree) : x.getAt [] = x := rfl

@[simp] theorem getAt_cons (x : Tree) (i : Nat) (p : Path) :
    x.getAt (i :: p) = (x.child i).getAt p := rfl

@[simp] theorem getAt_error (p : Path) : error.getAt p = error := by
  induction p with
  | nil => rfl
  | cons i p ih => exact ih

theorem getAt_append (x : Tree) (p q : Path) : x.getAt (p ++ q) = (x.getAt p).getAt q := by
  induction p generalizing x with
  | nil => rfl
  | cons i p ih => exact ih (x.child i)

/-- The tree in a slot of the subtree at a path. -/
theorem getAt_concat (x : Tree) (p : Path) (i : Nat) : x.getAt (p ++ [i]) = (x.getAt p).child i :=
  getAt_append x p [i]

/-- Below a tree that is no node there is no node. -/
theorem isNode_getAt_eq_false {x : Tree} (h : x.isNode = false) (p : Path) :
    (x.getAt p).isNode = false := by
  cases p with
  | nil => exact h
  | cons i p =>
    cases x with
    | node t cs => exact absurd h nofun
    | vacant => rw [getAt_cons, child_vacant, getAt_error]; rfl
    | error => rw [getAt_error]; rfl

theorem isNode_of_getAt {x : Tree} {p : Path} (h : (x.getAt p).isNode = true) :
    x.isNode = true := by
  cases hx : x.isNode with
  | true => rfl
  | false => rwa [isNode_getAt_eq_false hx] at h

/-- A path to a node leads through a node. -/
theorem isNode_child {x : Tree} {i : Nat} {p : Path} (h : (x.getAt (i :: p)).isNode = true) :
    (x.child i).isNode = true :=
  isNode_of_getAt h

/-! ## Building -/

theorem build_eq_node {t : Int64} {cs : List Tree} {width : Nat} (hlen : cs.length ≤ width)
    (hcs : error ∉ cs) :
    build t cs width = node t (cs ++ List.replicate (width - cs.length) vacant) := by
  have h : ¬ (width < cs.length ∨ cs.any isError = true) := by
    rintro (h | h)
    · omega
    · obtain ⟨c, hc, he⟩ := List.any_eq_true.mp h
      exact hcs (isError_iff.mp he ▸ hc)
  rw [build, if_neg h]

/-- A built tree that is no error is the node with its children and vacant slots behind them. -/
theorem build_ne_error {t : Int64} {cs : List Tree} {width : Nat}
    (h : build t cs width ≠ error) : cs.length ≤ width ∧ error ∉ cs := by
  rw [Ne, build_eq_error_iff, not_or] at h
  exact ⟨Nat.le_of_not_lt h.1, h.2⟩

/-- A node whose slots are all filled. -/
theorem build_length {t : Int64} {cs : List Tree} (hcs : error ∉ cs) :
    build t cs cs.length = node t cs := by
  rw [build_eq_node (Nat.le_refl _) hcs, Nat.sub_self, List.replicate_zero, List.append_nil]

theorem child_build {t : Int64} {cs : List Tree} {width : Nat} (h : build t cs width ≠ error)
    (i : Nat) : (build t cs width).child i =
      if i < width then cs[i]?.getD vacant else error := by
  obtain ⟨hlen, hcs⟩ := build_ne_error h
  rw [build_eq_node hlen hcs, child_node]
  by_cases hi : i < cs.length
  · rw [List.getElem?_append_left hi, if_pos (by omega), List.getElem?_eq_getElem hi]
    rfl
  · rw [List.getElem?_append_right (by omega), List.getElem?_replicate]
    rw [List.getElem?_eq_none (by omega : cs.length ≤ i)]
    by_cases hw : i < width
    · rw [if_pos (by omega), if_pos hw]
      rfl
    · rw [if_neg (by omega), if_neg hw]
      rfl

/-- A built tree is a node or an error. -/
theorem build_ne_vacant (t : Int64) (cs : List Tree) (width : Nat) :
    build t cs width ≠ vacant := by
  unfold build
  split <;> nofun

/-- A node without errors that has the children of another node is that node. -/
theorem build_eq_of_slots {t : Int64} {cs slots : List Tree} (hcs : error ∉ cs)
    (hlen : cs.length ≤ slots.length) (hargs : ∀ i (h : i < cs.length), slots[i]? = some cs[i])
    (hrest : ∀ i, cs.length ≤ i → i < slots.length → slots[i]? = some vacant) :
    build t cs slots.length = node t slots := by
  rw [build_eq_node hlen hcs]
  congr 1
  refine List.ext_getElem? fun i => ?_
  by_cases hi : i < cs.length
  · rw [List.getElem?_append_left hi, hargs i hi, List.getElem?_eq_getElem hi]
  · rw [List.getElem?_append_right (by omega), List.getElem?_replicate]
    by_cases hw : i < slots.length
    · rw [if_pos (by omega), hrest i (by omega) hw]
    · rw [if_neg (by omega), List.getElem?_eq_none (by omega)]

/-! ## Shape -/

/-- Every node has `width` slots. -/
inductive Uniform (width : Nat) : Tree → Prop
  | node {t : Int64} {cs : List Tree} (slots : cs.length = width)
      (children : ∀ c ∈ cs, Uniform width c) : Uniform width (.node t cs)
  | vacant : Uniform width .vacant
  | error : Uniform width .error

/-- No error stands anywhere. -/
inductive ErrorFree : Tree → Prop
  | node {t : Int64} {cs : List Tree} (children : ∀ c ∈ cs, ErrorFree c) : ErrorFree (.node t cs)
  | vacant : ErrorFree .vacant

/-- Every node has `width` slots, and no error stands anywhere. -/
inductive Regular (width : Nat) : Tree → Prop
  | node {t : Int64} {cs : List Tree} (slots : cs.length = width)
      (children : ∀ c ∈ cs, Regular width c) : Regular width (.node t cs)
  | vacant : Regular width .vacant

variable {width : Nat}

theorem Regular.uniform {x : Tree} (h : x.Regular width) : x.Uniform width := by
  induction h with
  | node slots _ ih => exact .node slots ih
  | vacant => exact .vacant

theorem Regular.errorFree {x : Tree} (h : x.Regular width) : x.ErrorFree := by
  induction h with
  | node _ _ ih => exact .node ih
  | vacant => exact .vacant

theorem ErrorFree.ne_error {x : Tree} (h : x.ErrorFree) : x ≠ error := by
  rintro rfl
  cases h

theorem Regular.ne_error {x : Tree} (h : x.Regular width) : x ≠ error := h.errorFree.ne_error

theorem Uniform.child {x : Tree} (h : x.Uniform width) (i : Nat) : (x.child i).Uniform width := by
  cases h with
  | @node t cs slots children =>
    rw [child_node]
    cases hi : cs[i]? with
    | none => exact .error
    | some c => exact children c (List.mem_of_getElem? hi)
  | vacant => exact .error
  | error => exact .error

theorem Uniform.getAt {x : Tree} (h : x.Uniform width) (p : Path) : (x.getAt p).Uniform width := by
  induction p generalizing x with
  | nil => exact h
  | cons i p ih => exact ih (h.child i)

/-- A child of a regular tree is an error exactly where there is no slot. -/
theorem Regular.child {x : Tree} (h : x.Regular width) {i : Nat} (hi : x.child i ≠ Tree.error) :
    (x.child i).Regular width := by
  cases h with
  | @node t cs slots children =>
    rw [child_node] at hi ⊢
    cases hc : cs[i]? with
    | none =>
      rw [hc] at hi
      exact absurd rfl hi
    | some c => exact children c (List.mem_of_getElem? hc)
  | vacant => exact absurd rfl hi

theorem Regular.getAt {x : Tree} (h : x.Regular width) {p : Path} (hp : x.getAt p ≠ Tree.error) :
    (x.getAt p).Regular width := by
  induction p generalizing x with
  | nil => exact h
  | cons i p ih =>
    refine ih (h.child fun he => hp ?_) hp
    rw [getAt_cons, he, getAt_error]

theorem regular_build {t : Int64} {cs : List Tree} (hlen : cs.length ≤ width)
    (h : ∀ c ∈ cs, Regular width c) : (build t cs width).Regular width := by
  rw [build_eq_node hlen fun he => (h _ he).ne_error rfl]
  refine .node (by simp; omega) fun c hc => ?_
  rcases List.mem_append.mp hc with hc | hc
  · exact h c hc
  · rw [(List.mem_replicate.mp hc).2]
    exact .vacant

/-! ## Rebuilding along a path -/

/-- `x` with `y` at a path, where every ancestor is built again from its tag and its slots. -/
def rebuild (width : Nat) (y : Tree) : Path → Tree → Tree
  | [], _ => y
  | i :: p, x => .build x.tag
      ((List.range width).map fun slot =>
        if slot = i then rebuild width y p (x.child slot) else x.child slot) width

/-- Where there is no node, an error stands in a slot that is not replaced. -/
theorem rebuild_of_not_node (hw : 2 ≤ width) {x : Tree} (hx : ∀ i, x.child i = error) (y : Tree)
    (i : Nat) (p : Path) : rebuild width y (i :: p) x = error := by
  unfold rebuild
  rw [build_eq_error_iff]
  refine .inr (List.mem_map.mpr ⟨if i = 0 then 1 else 0, ?_, ?_⟩)
  · rw [List.mem_range]
    split <;> omega
  · rw [hx, if_neg]
    split <;> omega

theorem rebuild_eq_replaceAt (hw : 2 ≤ width) (y : Tree) {p : Path} (hp : ∀ i ∈ p, i < width)
    {x : Tree} (hx : x.Uniform width) : rebuild width y p x = x.replaceAt p y := by
  induction p generalizing x with
  | nil => rfl
  | cons i p ih =>
    obtain ⟨hi, hp⟩ := List.forall_mem_cons.mp hp
    cases hx with
    | vacant => exact rebuild_of_not_node hw child_vacant y i p
    | error => exact rebuild_of_not_node hw child_error y i p
    | @node t cs slots children =>
      subst slots
      have hcs : (List.range cs.length).map (fun slot =>
          if slot = i then rebuild cs.length y p ((node t cs).child slot)
          else (node t cs).child slot) = cs.set i (((node t cs).child i).replaceAt p y) := by
        refine List.ext_getElem (by simp) fun slot h h' => ?_
        rw [List.getElem_map, List.getElem_range, List.getElem_set]
        by_cases hs : slot = i
        · rw [if_pos hs, if_pos hs.symm, hs]
          exact ih hp ((Uniform.node rfl children).child i)
        · rw [List.length_set] at h'
          rw [if_neg hs, if_neg (Ne.symm hs), child_node, List.getElem?_eq_getElem h']
          rfl
      unfold rebuild
      rw [hcs, replaceAt, if_pos hi]
      rfl

/-- An error below the root spoils the whole tree, and at the root it is the tree. -/
theorem replaceAt_error (x : Tree) (p : Path) : x.replaceAt p error = error := by
  induction p generalizing x with
  | nil => rfl
  | cons i p ih =>
    cases x with
    | node t cs =>
      rw [replaceAt]
      split
      · rename_i hi
        rw [ih, build_eq_error_iff]
        exact .inr (List.mem_set hi error)
      · rfl
    | vacant => rfl
    | error => rfl

/-! ## Codes in a tree -/

/-- Some node has the tag. -/
inductive Occurs (code : Int64) : Tree → Prop
  | here {cs : List Tree} : Occurs code (.node code cs)
  | child {t : Int64} {cs : List Tree} {c : Tree} (mem : c ∈ cs) (occurs : Occurs code c) :
      Occurs code (.node t cs)

variable {code : Int64}

theorem occurs_child {x : Tree} {i : Nat} (h : (x.child i).Occurs code) : x.Occurs code := by
  cases x with
  | node t cs =>
    rw [child_node] at h
    cases hc : cs[i]? with
    | none =>
      rw [hc] at h
      exact nomatch h
    | some c =>
      rw [hc] at h
      exact .child (List.mem_of_getElem? hc) h
  | vacant => exact nomatch h
  | error => exact nomatch h

theorem occurs_getAt {x : Tree} {p : Path} (h : (x.getAt p).Occurs code) : x.Occurs code := by
  induction p generalizing x with
  | nil => exact h
  | cons i p ih => exact occurs_child (ih h)

theorem occurs_build {t : Int64} {cs : List Tree} (h : (build t cs width).Occurs code) :
    code = t ∨ ∃ c ∈ cs, c.Occurs code := by
  unfold build at h
  split at h
  · exact nomatch h
  · cases h with
    | here => exact .inl rfl
    | child mem occurs =>
      rcases List.mem_append.mp mem with hc | hc
      · exact .inr ⟨_, hc, occurs⟩
      · rw [(List.mem_replicate.mp hc).2] at occurs
        exact nomatch occurs

/-- The tag of a tree is zero or occurs in it. -/
theorem tag_eq_zero_or_occurs (x : Tree) : x.tag = 0 ∨ x.Occurs x.tag := by
  cases x with
  | node t cs => exact .inr .here
  | vacant => exact .inl rfl
  | error => exact .inl rfl

theorem occurs_rebuild {x y : Tree} {p : Path} (h : (rebuild width y p x).Occurs code) :
    code = 0 ∨ x.Occurs code ∨ y.Occurs code := by
  induction p generalizing x with
  | nil => exact .inr (.inr h)
  | cons i p ih =>
    rcases occurs_build h with rfl | ⟨c, hc, hcode⟩
    · exact (tag_eq_zero_or_occurs x).imp_right .inl
    · obtain ⟨slot, -, rfl⟩ := List.mem_map.mp hc
      split at hcode
      · exact (ih hcode).imp_right (Or.imp_left occurs_child)
      · exact .inr (.inl (occurs_child hcode))

end SortedRewriting.Tree
