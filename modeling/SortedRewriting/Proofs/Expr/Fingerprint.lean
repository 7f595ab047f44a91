import SortedRewriting.Proofs.Digest.SelfDelimiting
import SortedRewriting.Proofs.Expr.Subterms

/-!
# Digests identify expressions

The digest of a node covers its kind, its symbol and the digests of its children. Going down from
the root, each digest gives back the node and the digests of the children, as long as no two of the
hashed messages have one hash (`Expr.messages`) and lengths fit into 64 bits (`Expr.Counted`).

* **`Expr.digest_eq_iff`**: without a collision, expressions of one digest are one expression.
-/

namespace SortedRewriting.Expr

variable {e e' t : Expr} {known : List UInt8 → Prop}

/-- Symbols and lists of children have lengths below `2 ^ 64`, everywhere in the expression. -/
def Counted (e : Expr) : Prop :=
  ∀ t ∈ subtermsOf [e], (Bytes.utf8 t.sym).length < 2 ^ 64 ∧ t.args.length < 2 ^ 64

instance (e : Expr) : Decidable e.Counted := by
  unfold Counted
  infer_instance

theorem counted_iff : e.Counted ↔ ∀ t : Expr, t.IsSubterm e →
    (Bytes.utf8 t.sym).length < 2 ^ 64 ∧ t.args.length < 2 ^ 64 :=
  forall_isSubterm_iff.symm

theorem Counted.subterm (h : e.Counted) (ht : t.IsSubterm e) : t.Counted :=
  counted_iff.mpr fun u hu => counted_iff.mp h u (hu.trans ht)

/-- What is hashed for the root of an expression. -/
def message (e : Expr) : List UInt8 :=
  Digest.message .exprNode (nodePayload e.kind e.sym (e.args.map digest))

/-- All messages that are hashed for an expression. -/
def messages (e : Expr) : List (List UInt8) := (subtermsOf [e]).map message

theorem message_mem_messages (ht : t.IsSubterm e) : t.message ∈ e.messages :=
  List.mem_map_of_mem (mem_subtermsOf_iff.mpr ⟨e, List.mem_singleton_self e, ht⟩)

theorem messages_subset (ht : t.IsSubterm e) {m : List UInt8} (hm : m ∈ t.messages) :
    m ∈ e.messages := by
  obtain ⟨u, hu, rfl⟩ := List.mem_map.mp hm
  obtain ⟨_, hmem, hut⟩ := mem_subtermsOf_iff.mp hu
  cases List.mem_singleton.mp hmem
  exact message_mem_messages (hut.trans ht)

theorem digest_eq_hash (e : Expr) : e.digest = Sha256.hash e.message := by
  obtain ⟨k, s, as⟩ := e
  rw [digest, digestAll_eq_map, Digest.ofPayload_eq_hash]
  rfl

/-- The kind of a node is told by its byte. -/
theorem code_injective {k k' : Kind} (h : k.code = k'.code) : k = k' := by
  cases k <;> cases k' <;> first | rfl | exact absurd h (by decide)

/-- The layout of a node is self-delimiting. -/
theorem selfDelimiting_nodePayload : Bytes.SelfDelimiting
    (fun node : Kind × String × List Digest => nodePayload node.1 node.2.1 node.2.2)
    (fun node => (Bytes.utf8 node.2.1).length < 2 ^ 64 ∧ node.2.2.length < 2 ^ 64) id := by
  have hkind : Bytes.SelfDelimiting (fun k : Kind => [k.code]) (fun _ => True) id :=
    Bytes.selfDelimiting_of_length (fun _ => rfl) fun _ _ _ _ h => code_injective (List.cons.inj h).1
  have hnode := (hkind.comap fun node : Kind × String × List Digest => node.1).append
    ((Bytes.selfDelimiting_text.comap fun node => node.2.1).append
      (Bytes.selfDelimiting_digest.payloadList.comap fun node => node.2.2))
  have heq : (fun node : Kind × String × List Digest => nodePayload node.1 node.2.1 node.2.2) =
      fun node => [node.1.code] ++ (Bytes.text node.2.1 ++
        Theory.payloadList (fun d : Digest => d.toList) node.2.2) :=
    funext fun node => congrArg (node.1.code :: ·) (List.append_assoc _ _ _)
  rw [heq]
  refine hnode.refine (fun node h => ⟨trivial, h.1, h.2, fun _ _ => trivial⟩) fun a b _ _ h => ?_
  simpa [Prod.ext_iff] using h

/-- A digest gives back the kind, the symbol and the digests of the children. -/
theorem node_eq_of_digest_eq (hfree : Sha256.CollisionFree known) (he : e.Counted)
    (he' : e'.Counted) (hmem : known e.message) (hmem' : known e'.message)
    (h : e.digest = e'.digest) :
    e.kind = e'.kind ∧ e.sym = e'.sym ∧ e.args.map digest = e'.args.map digest := by
  rw [digest_eq_hash, digest_eq_hash] at h
  obtain ⟨-, hpayload⟩ := Digest.message_eq_iff.mp (hfree _ _ hmem hmem' h)
  have hroot := counted_iff.mp he e (.refl e)
  have hroot' := counted_iff.mp he' e' (.refl e')
  have hnode := selfDelimiting_nodePayload.view_eq
    (a := (e.kind, e.sym, e.args.map digest)) (b := (e'.kind, e'.sym, e'.args.map digest))
    (by simpa using hroot) (by simpa using hroot') hpayload
  exact ⟨congrArg (·.1) hnode, congrArg (·.2.1) hnode, congrArg (·.2.2) hnode⟩

/-- **Expressions of one digest are one expression**, without a collision. -/
theorem eq_of_digest_eq (hfree : Sha256.CollisionFree known) (he : e.Counted) (he' : e'.Counted)
    (hmem : ∀ m ∈ e.messages, known m) (hmem' : ∀ m ∈ e'.messages, known m)
    (h : e.digest = e'.digest) : e = e' := by
  induction e generalizing e' with
  | node k s as ih =>
    obtain ⟨k', s', bs⟩ := e'
    obtain ⟨hk, hs, hdigests⟩ := node_eq_of_digest_eq hfree he he'
      (hmem _ (message_mem_messages (.refl _))) (hmem' _ (message_mem_messages (.refl _))) h
    cases hk
    cases hs
    refine congrArg (Expr.node k s) ?_
    change as.map digest = bs.map digest at hdigests
    have hlength : as.length = bs.length := by simpa using congrArg List.length hdigests
    refine List.ext_getElem hlength fun i hi hi' => ?_
    have ha := isSubterm_arg (k := k) (s := s) (List.getElem_mem hi)
    have hb := isSubterm_arg (k := k) (s := s) (List.getElem_mem hi')
    have hdigest : as[i].digest = bs[i].digest := by
      have hget := congrArg (·[i]?) hdigests
      simpa [hi, hi'] using hget
    exact ih as[i] (List.getElem_mem hi) (he.subterm ha) (he'.subterm hb)
      (fun m hm => hmem m (messages_subset ha hm)) (fun m hm => hmem' m (messages_subset hb hm)) hdigest

/-- **Digests identify expressions**, without a collision among what is hashed for them. -/
theorem digest_eq_iff (he : e.Counted) (he' : e'.Counted)
    (hfree : Sha256.CollisionFree (· ∈ e.messages ++ e'.messages)) :
    e.digest = e'.digest ↔ e = e' :=
  ⟨eq_of_digest_eq hfree he he' (fun _ => List.mem_append_left _) fun _ => List.mem_append_right _,
    congrArg digest⟩

end SortedRewriting.Expr
