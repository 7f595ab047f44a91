import Mathlib.Data.List.Nodup
import SortedRewriting.Proofs.Digest.Layout
import SortedRewriting.Tree.Digest

/-!
# Fingerprints identify trees

The payload of a tree lists its nodes and slots, each node before its children and with their
number, so that no two trees have one payload (`Tree.payload_injective`). The number is written with
64 bits. This is enough for trees in which no node has more children than that
(`Tree.Counted`), as in the memory of any machine with addresses of 64 bits, and it is enough that
one of the two trees is such.

* **`Tree.eq_of_fingerprint_eq`**: without a collision of the hash function, trees of one
  fingerprint are one tree.
-/

namespace SortedRewriting.Tree

/-- Every node has fewer than `2 ^ 64` children. -/
inductive Counted : Tree → Prop
  | node {t : Int64} {cs : List Tree} (count : cs.length < 2 ^ 64)
      (children : ∀ c ∈ cs, Counted c) : Counted (.node t cs)
  | vacant : Counted .vacant
  | error : Counted .error

theorem counted_node_iff {t : Int64} {cs : List Tree} :
    (node t cs).Counted ↔ cs.length < 2 ^ 64 ∧ ∀ c ∈ cs, c.Counted :=
  ⟨fun | .node count children => ⟨count, children⟩, fun h => .node h.1 h.2⟩

theorem counted_build {t : Int64} {cs : List Tree} {width : Nat} (h : ∀ c ∈ cs, c.Counted)
    (hwidth : width < 2 ^ 64) : (build t cs width).Counted := by
  unfold build
  split
  · exact .error
  · rename_i hfits
    refine .node ?_ fun c hc => ?_
    · rw [List.length_append, List.length_replicate]
      omega
    · rcases List.mem_append.mp hc with hc | hc
      · exact h c hc
      · exact List.eq_of_mem_replicate hc ▸ .vacant

theorem payload_ne_nil (x : Tree) : x.payload ≠ [] := by
  cases x <;> nofun

/-- The bytes before the children of a node. -/
def header (t : Int64) (count : Nat) : List UInt8 :=
  2 :: (Bytes.word64 t.toUInt64.toNat ++ Bytes.word64 count)

theorem payload_node (t : Int64) (cs : List Tree) :
    (node t cs).payload = header t cs.length ++ cs.flatMap payload := by
  rw [payload, payloadAll_eq_flatMap, header, List.cons_append, List.append_assoc]

theorem length_header (t : Int64) (count : Nat) : (header t count).length = 17 := rfl

/-- A header gives back the tag, and the number of children modulo `2 ^ 64`. -/
theorem header_inj {t t' : Int64} {n n' : Nat} (h : header t n = header t' n') :
    t = t' ∧ n % 2 ^ 64 = n' % 2 ^ 64 := by
  obtain ⟨htag, hcount⟩ := List.append_inj (List.cons.inj h).2 (by simp)
  have htag := Bytes.word64_inj htag
  rw [Nat.mod_eq_of_lt t.toUInt64.toNat_lt, Nat.mod_eq_of_lt t'.toUInt64.toNat_lt] at htag
  exact ⟨congrArg Int64.ofUInt64 (UInt64.toNat_inj.mp htag), Bytes.word64_inj hcount⟩

/-- The first byte of a payload tells the form of the tree. A slot ends there; a node goes on with
its tag, the number of its children, and these. -/
theorem payload_append_cases {x y : Tree} {rest rest' : List UInt8}
    (h : x.payload ++ rest = y.payload ++ rest') :
    (x = y ∧ rest = rest') ∨
    ∃ t cs ds, x = node t cs ∧ y = node t ds ∧ cs.length % 2 ^ 64 = ds.length % 2 ^ 64 ∧
      cs.flatMap payload ++ rest = ds.flatMap payload ++ rest' := by
  cases x with
  | error =>
    cases y with
    | error => exact .inl ⟨rfl, (List.cons.inj h).2⟩
    | vacant => exact absurd (List.cons.inj h).1 (by decide)
    | node t' ds => exact absurd (List.cons.inj h).1 (by decide)
  | vacant =>
    cases y with
    | error => exact absurd (List.cons.inj h).1 (by decide)
    | vacant => exact .inl ⟨rfl, (List.cons.inj h).2⟩
    | node t' ds => exact absurd (List.cons.inj h).1 (by decide)
  | node t cs =>
    cases y with
    | error => exact absurd (List.cons.inj h).1 (by decide)
    | vacant => exact absurd (List.cons.inj h).1 (by decide)
    | node t' ds =>
      rw [payload_node, payload_node, List.append_assoc, List.append_assoc] at h
      obtain ⟨hheader, hrest⟩ := List.append_inj h (by rw [length_header, length_header])
      obtain ⟨rfl, hcount⟩ := header_inj hheader
      exact .inr ⟨t, cs, ds, rfl, rfl, hcount, hrest⟩

/-- Trees in a row are read off their payloads, where the other row is as long at least. A node is
replaced by its children, so that the rows stay in step: a node of the other row may have more
children than its header says, but never fewer. -/
theorem flatMap_payload_inj {xs ys : List Tree} (hcounted : ∀ x ∈ xs, x.Counted)
    (hlen : xs.length ≤ ys.length) (h : xs.flatMap payload = ys.flatMap payload) : xs = ys := by
  induction hn : (xs.flatMap payload).length using Nat.strong_induction_on generalizing xs ys with
  | _ n ih =>
    subst hn
    cases xs with
    | nil =>
      cases ys with
      | nil => rfl
      | cons y ys => exact absurd (List.append_eq_nil_iff.mp h.symm).1 (payload_ne_nil y)
    | cons x xs =>
      cases ys with
      | nil => exact absurd hlen (Nat.not_succ_le_zero _)
      | cons y ys =>
        obtain ⟨hx, hxs⟩ := List.forall_mem_cons.mp hcounted
        have hle : xs.length ≤ ys.length := Nat.le_of_succ_le_succ hlen
        rw [List.flatMap_cons] at ih
        rw [List.flatMap_cons, List.flatMap_cons] at h
        rcases payload_append_cases h with ⟨rfl, hrest⟩ | ⟨t, cs, ds, rfl, rfl, hcount, hrest⟩
        · have hpos := List.length_pos_of_ne_nil (payload_ne_nil x)
          rw [ih _ (by rw [List.length_append]; omega) hxs hle hrest rfl]
        · obtain ⟨count, children⟩ := counted_node_iff.mp hx
          have hfewer : cs.length ≤ ds.length := by
            rw [← Nat.mod_eq_of_lt count, hcount]
            exact Nat.mod_le _ _
          rw [← List.flatMap_append, ← List.flatMap_append] at hrest
          have hrows : cs ++ xs = ds ++ ys := by
            refine ih _ ?_ (fun c hc => ?_) ?_ hrest rfl
            · simp only [payload_node, List.flatMap_append, List.length_append, length_header]
              omega
            · exact (List.mem_append.mp hc).elim (children c) (hxs c)
            · rw [List.length_append, List.length_append]
              exact Nat.add_le_add hfewer hle
          have hsum := congrArg List.length hrows
          rw [List.length_append, List.length_append] at hsum
          obtain ⟨rfl, rfl⟩ := List.append_inj hrows (by omega)
          rfl

/-- **No two trees have one payload**, if one of them is counted. -/
theorem payload_injective {x y : Tree} (hx : x.Counted) (h : x.payload = y.payload) : x = y := by
  have hrow : [x] = [y] :=
    flatMap_payload_inj (by simpa using hx) (Nat.le_refl _) (by simpa using h)
  exact (List.cons.inj hrow).1

/-- **Trees of one fingerprint are one tree**, without a collision. -/
theorem eq_of_fingerprint_eq {messages : List UInt8 → Prop} (hfree : Sha256.CollisionFree messages)
    {x y : Tree} (hx : x.Counted) (hmem : messages (Digest.message .tree x.payload))
    (hmem' : messages (Digest.message .tree y.payload)) (h : x.fingerprint = y.fingerprint) :
    x = y :=
  payload_injective hx (Digest.payload_eq_of_ofPayload_eq hfree hmem hmem' h)

/-- There is no collision among finitely many trees of different fingerprints. -/
theorem collisionFree_of_nodup {messages : List UInt8 → Prop} {xs : List Tree}
    (hmem : ∀ m, messages m → ∃ x ∈ xs, m = Digest.message .tree x.payload)
    (hnodup : (xs.map fingerprint).Nodup) : Sha256.CollisionFree messages := by
  have hhashes : ((xs.map fun x => Digest.message .tree x.payload).map Sha256.hash).Nodup := by
    rw [List.map_map]
    exact hnodup
  refine Sha256.collisionFree_of_nodup (fun m hm => ?_) hhashes
  obtain ⟨x, hx, rfl⟩ := hmem m hm
  exact List.mem_map_of_mem hx

end SortedRewriting.Tree
