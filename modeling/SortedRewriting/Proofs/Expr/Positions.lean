import Mathlib.Data.List.Nodup
import SortedRewriting.Expr.Digest
import SortedRewriting.Proofs.Expr.Subterms

/-!
# Positions in order, and the digests that stand at them

`Expr.positions` reads the positions off the subterms. `Expr.walk` finds them with a stack of open
subterms instead, and `Expr.enter` enters a digest for each of them into a table, children first,
with one path that is lengthened and shortened on the way. The digest of a node is a parameter there
(`Expr.digestBy`), so that nothing depends on which digests coincide.

* `Expr.mem_positions_iff`, **`Expr.pairwise_positions`**: the positions are those of subterms, in
  lexicographic order.
* **`Expr.walk_root`**: the walk meets the positions in this order.
* **`Expr.getElem?_digestTable`**: the table has the digest of the subterm at each position.
-/

namespace SortedRewriting.Expr

variable {e t : Expr} {p q : Position} {k : Kind} {s : String} {as : List Expr}

/-! ## The order of positions -/

/-- The positions are those of subterms. -/
theorem mem_positions_iff : p ∈ e.positions ↔ ∃ t, e.subterm? p = some t := by
  simp only [positions, List.mem_map, Prod.exists, exists_and_right, exists_eq_right,
    mem_subterms_iff]

theorem map_fst_subtermsFrom (i : Nat) (as : List Expr) : (subtermsFrom i as).map (·.1) =
    (as.zipIdx i).flatMap fun x => x.1.positions.map (x.2 :: ·) := by
  induction as generalizing i with
  | nil => rfl
  | cons a as ih =>
    rw [subtermsFrom, List.map_append, ih, List.zipIdx_cons, List.flatMap_cons, positions,
      List.map_map, List.map_map]
    rfl

/-- The root comes first, and then the positions below each child. -/
theorem positions_node : (node k s as).positions =
    [] :: as.zipIdx.flatMap fun x => x.1.positions.map (x.2 :: ·) := by
  rw [positions, subterms, List.map_cons, map_fst_subtermsFrom]

/-- **Positions come in lexicographic order**, each before those that it is a prefix of. -/
theorem pairwise_positions (e : Expr) : e.positions.Pairwise (· < ·) := by
  induction e with
  | node k s as ih =>
    rw [positions_node, List.pairwise_cons, List.pairwise_flatMap]
    refine ⟨fun p hp => ?_, fun ⟨a, j⟩ ha => ?_, ?_⟩
    · obtain ⟨⟨a, j⟩, -, hp⟩ := List.mem_flatMap.mp hp
      obtain ⟨q, -, rfl⟩ := List.mem_map.mp hp
      exact List.nil_lt_cons j q
    · obtain ⟨-, ha⟩ := List.mem_zipIdx_iff_le_and_getElem?_sub.mp ha
      refine List.pairwise_map.mpr ((ih a (List.mem_of_getElem? ha)).imp fun hlt => ?_)
      exact List.cons_lt_cons_iff.mpr (.inr ⟨rfl, hlt⟩)
    · have hindices : as.zipIdx.Pairwise fun x y => x.2 < y.2 := by
        rw [← List.pairwise_map, List.zipIdx_map_snd]
        exact List.pairwise_lt_range'
      refine hindices.imp fun {x y} hlt p hp q hq => ?_
      obtain ⟨p, -, rfl⟩ := List.mem_map.mp hp
      obtain ⟨q, -, rfl⟩ := List.mem_map.mp hq
      exact List.cons_lt_cons_iff.mpr (.inl hlt)

theorem nodup_positions (e : Expr) : e.positions.Nodup := (pairwise_positions e).nodup

/-! ## The walk with a stack -/

/-- Puts the children of an expression at a path onto a stack, the last one first. -/
def pushChildren (path : Position) (e : Expr) (stack : List (Position × Expr)) :
    List (Position × Expr) :=
  e.args.zipIdx.reverse.foldl (fun stack x => (path ++ [x.2], x.1) :: stack) stack

theorem pushChildren_eq (path : Position) (e : Expr) (stack : List (Position × Expr)) :
    pushChildren path e stack = (e.args.zipIdx.map fun x => (path ++ [x.2], x.1)) ++ stack := by
  rw [pushChildren, List.foldl_flip_cons_eq_append, ← List.map_reverse, List.reverse_reverse]

theorem length_subtermsFrom (i : Nat) (as : List Expr) :
    (subtermsFrom i as).length = (as.flatMap (·.subterms)).length := by
  induction as generalizing i with
  | nil => rfl
  | cons a as ih => rw [subtermsFrom, List.length_append, List.length_map, ih, List.flatMap_cons,
      List.length_append]

/-- The subterms below an expression are fewer than those at or below it. -/
theorem length_flatMap_pushChildren_lt (path : Position) (e : Expr)
    (stack : List (Position × Expr)) :
    ((pushChildren path e stack).flatMap (·.2.subterms)).length <
      (((path, e) :: stack).flatMap (·.2.subterms)).length := by
  obtain ⟨k, s, as⟩ := e
  have hargs : as.zipIdx.flatMap (·.1.subterms) = as.flatMap (·.subterms) := by
    conv_rhs => rw [← List.zipIdx_map_fst 0 as, List.flatMap_map]
  rw [pushChildren_eq, List.flatMap_append, List.flatMap_map, List.flatMap_cons,
    List.length_append, List.length_append]
  simp only [subterms, List.length_cons, length_subtermsFrom, args, hargs]
  omega

/-- The positions of the subterms on a stack: the one on top is next, and its children take its
place. -/
def walk : List (Position × Expr) → List Position
  | [] => []
  | (path, e) :: stack => path :: walk (pushChildren path e stack)
termination_by stack => (stack.flatMap (·.2.subterms)).length
decreasing_by exact length_flatMap_pushChildren_lt path e stack

/-- The walk leaves the stack from top to bottom, and goes through each subterm in order. -/
theorem walk_eq (stack : List (Position × Expr)) :
    walk stack = stack.flatMap fun x => x.2.positions.map (x.1 ++ ·) := by
  induction stack using walk.induct with
  | case1 => rw [walk, List.flatMap_nil]
  | case2 path e stack ih =>
    obtain ⟨k, s, as⟩ := e
    have hchildren : as.zipIdx.flatMap (fun x => x.1.positions.map (path ++ [x.2] ++ ·)) =
        (as.zipIdx.flatMap fun x => x.1.positions.map (x.2 :: ·)).map (path ++ ·) := by
      rw [List.map_flatMap]
      refine List.flatMap_congr fun x _ => ?_
      rw [List.map_map]
      exact List.map_congr_left fun q _ => List.append_assoc path [x.2] q
    rw [walk, ih, pushChildren_eq, List.flatMap_append, List.flatMap_map, List.flatMap_cons,
      positions_node, List.map_cons, List.append_nil, ← hchildren]
    rfl

/-- **The walk from the root meets the positions in order.** -/
theorem walk_root (e : Expr) : walk [([], e)] = e.positions := by
  rw [walk_eq, List.flatMap_singleton]
  exact List.map_id _

example : walk [([], .node .app "f" [.node .var "x" [.node .sort "T" []], .node .app "c" []])] =
    [[], [0], [0, 0], [1]] := by decide +kernel

/-! ## The table of digests -/

variable (mix : Kind → String → List Digest → Digest)

mutual

/-- The digest of an expression, from the digests of nodes over those of their children. -/
def digestBy : Expr → Digest
  | .node k s as => mix k s (digestByAll as)

/-- The digests of a list of expressions. -/
def digestByAll : List Expr → List Digest
  | [] => []
  | a :: as => digestBy a :: digestByAll as

end

/-- The digest of a node with children of these digests. -/
def nodeDigest (k : Kind) (s : String) (children : List Digest) : Digest :=
  .ofPayload .exprNode (nodePayload k s children)

mutual

theorem digestBy_nodeDigest : (e : Expr) → e.digestBy nodeDigest = e.digest
  | .node k s as => by rw [digestBy, digest, digestByAll_nodeDigest as, nodeDigest]

theorem digestByAll_nodeDigest : (as : List Expr) → digestByAll nodeDigest as = digestAll as
  | [] => rfl
  | a :: as => by rw [digestByAll, digestAll, digestBy_nodeDigest a, digestByAll_nodeDigest as]

end

/-- A path into the expression, and the digests that have been entered. -/
structure Filling where
  path : Position
  table : Std.ExtTreeMap Position Digest

mutual

/-- Enters the digests of an expression that stands at the path, after those of its children. -/
def enter (f : Filling) : Expr → Digest × Filling
  | .node k s as =>
    let (children, f) := enterFrom f 0 as
    let d := mix k s children
    (d, { f with table := f.table.insert f.path d })

/-- Enters the digests of consecutive children, the first of which has index `i`. The path is
longer by the index of a child while that child is entered. -/
def enterFrom (f : Filling) (i : Nat) : List Expr → List Digest × Filling
  | [] => ([], f)
  | a :: as =>
    let (d, f) := enter { f with path := f.path ++ [i] } a
    let (ds, f) := enterFrom { f with path := f.path.dropLast } (i + 1) as
    (d :: ds, f)

end

/-- The digests of all subterms by position. -/
def digestTable (e : Expr) : Std.ExtTreeMap Position Digest := (e.enter mix ⟨[], ∅⟩).2.table

/-- Exactly the digests of these subterms have been entered, below the path, which is as it was. -/
structure Filled (f f' : Filling) (below : List (Position × Expr)) : Prop where
  path : f'.path = f.path
  entered : ∀ p t, (p, t) ∈ below → f'.table[f.path ++ p]? = some (t.digestBy mix)
  kept : ∀ q, (∀ p t, (p, t) ∈ below → f.path ++ p ≠ q) → f'.table[q]? = f.table[q]?

variable {mix}

/-- The children from an index on: first one of them, then the others. -/
theorem Filled.cons {f f₁ f' : Filling} {i : Nat} {a : Expr}
    (ha : Filled mix { f with path := f.path ++ [i] } f₁ a.subterms)
    (has : Filled mix { f₁ with path := f₁.path.dropLast } f' (subtermsFrom (i + 1) as)) :
    Filled mix f f' (subtermsFrom i (a :: as)) := by
  have hpath : f₁.path.dropLast = f.path := by rw [ha.path, List.dropLast_concat]
  -- the others stand below later indices
  have hne : ∀ p r t, (r, t) ∈ subtermsFrom (i + 1) as → f.path ++ r ≠ f.path ++ i :: p := by
    intro p r t hr heq
    obtain ⟨j, q, _, rfl, -⟩ := mem_subtermsFrom_iff.mp hr
    have hij := (List.cons.inj (List.append_cancel_left heq)).1
    omega
  have hkept := has.kept
  have hentered := has.entered
  simp only [hpath] at hkept hentered
  constructor
  · exact has.path.trans hpath
  · intro p t hp
    rw [subtermsFrom, List.mem_append] at hp
    rcases hp with hp | hp
    · obtain ⟨⟨q, u⟩, hq, heq⟩ := List.mem_map.mp hp
      cases heq
      rw [hkept _ fun r t hr => hne q r t hr, ← ha.entered q _ hq, List.append_assoc]
      rfl
    · exact hentered p t hp
  · intro q hq
    rw [hkept q fun p t hp => hq p t (by rw [subtermsFrom]; exact List.mem_append_right _ hp)]
    refine ha.kept q fun p t hp => ?_
    have hmem : (i :: p, t) ∈ subtermsFrom i (a :: as) := by
      rw [subtermsFrom]
      exact List.mem_append_left _ (List.mem_map.mpr ⟨(p, t), hp, rfl⟩)
    simpa using hq (i :: p) t hmem

mutual

/-- **Entering an expression enters the digests of its subterms.** -/
theorem enter_spec (f : Filling) : (e : Expr) →
    (e.enter mix f).1 = e.digestBy mix ∧ Filled mix f (e.enter mix f).2 e.subterms
  | .node k s as => by
    obtain ⟨hdigests, hfilled⟩ := enterFrom_spec f 0 as
    rw [enter, digestBy]
    simp only [hdigests, true_and]
    -- no child stands at the path itself
    have hne : ∀ p t, (p, t) ∈ subtermsFrom 0 as → f.path ≠ f.path ++ p := by
      intro p t hp heq
      obtain ⟨j, q, _, rfl, -⟩ := mem_subtermsFrom_iff.mp hp
      have hlen := congrArg List.length heq
      simp at hlen
    have hinsert : ∀ q, q ≠ f.path →
        ((enterFrom mix f 0 as).2.table.insert f.path (mix k s (digestByAll mix as)))[q]? =
          (enterFrom mix f 0 as).2.table[q]? := fun q hq => by
      rw [Std.ExtTreeMap.getElem?_insert, if_neg fun h => hq (Std.LawfulEqCmp.eq_of_compare h).symm]
    rw [hfilled.path]
    refine ⟨rfl, fun p t hp => ?_, fun q hq => ?_⟩
    · rw [subterms, List.mem_cons] at hp
      rcases hp with hp | hp
      · cases hp
        rw [List.append_nil, Std.ExtTreeMap.getElem?_insert_self, digestBy]
      · rw [hinsert _ (hne p t hp).symm]
        exact hfilled.entered p t hp
    · have hroot := hq [] _ (by rw [subterms]; exact List.mem_cons_self)
      rw [List.append_nil] at hroot
      rw [hinsert q (Ne.symm hroot)]
      exact hfilled.kept q fun p t hp => hq p t (by rw [subterms]; exact List.mem_cons_of_mem _ hp)

theorem enterFrom_spec (f : Filling) (i : Nat) : (as : List Expr) →
    (enterFrom mix f i as).1 = digestByAll mix as ∧
      Filled mix f (enterFrom mix f i as).2 (subtermsFrom i as)
  | [] => ⟨rfl, rfl, by simp [subtermsFrom], fun _ _ => rfl⟩
  | a :: as => by
    obtain ⟨hdigest, ha⟩ := enter_spec { f with path := f.path ++ [i] } a
    obtain ⟨hdigests, has⟩ := enterFrom_spec
      { (enter mix { f with path := f.path ++ [i] } a).2 with
        path := (enter mix { f with path := f.path ++ [i] } a).2.path.dropLast } (i + 1) as
    exact ⟨List.cons_eq_cons.mpr ⟨hdigest, hdigests⟩, ha.cons has⟩

end

/-- **The table has the digest of each subterm under its position**, and nothing else. -/
theorem getElem?_digestTable : (e.digestTable mix)[p]? = (e.subterm? p).map (digestBy mix) := by
  have hfilled : Filled mix ⟨[], ∅⟩ (e.enter mix ⟨[], ∅⟩).2 e.subterms := (enter_spec _ e).2
  cases ht : e.subterm? p with
  | some t => exact hfilled.entered p t (mem_subterms_iff.mpr ht)
  | none =>
    refine (hfilled.kept p fun q t hq heq => ?_).trans Std.ExtTreeMap.getElem?_empty
    rw [List.nil_append] at heq
    rw [← heq, mem_subterms_iff.mp hq] at ht
    cases ht

end SortedRewriting.Expr
