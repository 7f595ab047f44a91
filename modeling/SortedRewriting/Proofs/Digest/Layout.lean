import Mathlib.Algebra.Order.Ring.Nat
import Mathlib.Data.List.Nodup
import SortedRewriting.Digest.Basic

/-!
# What a digest is taken of

A digest hashes a message (`Digest.message`): the name of a domain, the length of a payload and the
payload. Where the hash function has no collision (`Sha256.CollisionFree`), digests that are equal
are of one message, and so of one payload (`Digest.payload_eq_of_ofPayload_eq`).

* `Bytes.ofWord64_word64`: eight bytes give back a number modulo `2 ^ 64`.
* `Bytes.fromUTF8?_utf8`: its bytes give back a text.
-/

namespace SortedRewriting

/-! ## Words -/

namespace Bytes

@[simp] theorem length_word64 (n : Nat) : (word64 n).length = 8 := rfl

/-- Little-endian bytes give back a number, modulo the numbers that they can hold. -/
theorem ofWord64_bytes (k n : Nat) :
    ofWord64 ((List.range k).map fun i => UInt8.ofNat (n >>> (8 * i))) = n % 256 ^ k := by
  induction k generalizing n with
  | zero => rw [pow_zero, Nat.mod_one]; rfl
  | succ k ih =>
    have hshift : ∀ i, n >>> (8 * (i + 1)) = (n / 256) >>> (8 * i) := fun i => by
      rw [Nat.mul_succ, Nat.add_comm, Nat.shiftRight_add, Nat.shiftRight_eq_div_pow n]
    rw [List.range_succ_eq_map, List.map_cons, List.map_map, ofWord64]
    simp only [Function.comp_def, Nat.succ_eq_add_one, hshift]
    rw [ih, pow_succ', Nat.mod_mul, Nat.mul_zero, Nat.shiftRight_zero, UInt8.toNat_ofNat']

theorem ofWord64_word64 (n : Nat) : ofWord64 (word64 n) = n % 2 ^ 64 := ofWord64_bytes 8 n

/-- Eight bytes hold a number modulo `2 ^ 64`. -/
theorem word64_inj {m n : Nat} (h : word64 m = word64 n) : m % 2 ^ 64 = n % 2 ^ 64 := by
  rw [← ofWord64_word64, ← ofWord64_word64, h]

/-! ## Texts -/

/-- The bytes of an array, from a place on. -/
theorem toList_loop (bs : ByteArray) (i : Nat) (r : List UInt8) :
    ByteArray.toList.loop bs i r = r.reverse ++ bs.data.toList.drop i := by
  induction hn : bs.size - i generalizing i r with
  | zero =>
    rw [ByteArray.toList.loop, if_neg (by omega), List.drop_of_length_le (Nat.le_of_sub_eq_zero hn),
      List.append_nil]
  | succ n ih =>
    have hi : i < bs.data.toList.length := Nat.lt_of_sub_eq_succ hn
    have hget : bs.get! i = bs.data.toList[i] := getElem!_pos bs.data i hi
    rw [ByteArray.toList.loop, if_pos (Nat.lt_of_sub_eq_succ hn), ih _ _ (by omega),
      List.drop_eq_getElem_cons hi, List.reverse_cons, List.append_assoc, hget]
    rfl

theorem toByteArray_toList (bs : ByteArray) : bs.toList.toByteArray = bs := by
  have h : bs.toList = bs.data.toList := toList_loop bs 0 []
  apply ByteArray.ext
  rw [h, List.data_toByteArray]

/-- The bytes of a text spell it. -/
theorem fromUTF8?_utf8 (s : String) : String.fromUTF8? (utf8 s).toByteArray = some s := by
  unfold utf8
  rw [toByteArray_toList, String.fromUTF8?, dif_pos s.isValidUTF8]
  rfl

end Bytes

/-! ## Messages -/

/-- No two of some messages have one hash. -/
def Sha256.CollisionFree (messages : List UInt8 → Prop) : Prop :=
  ∀ m m', messages m → messages m' → hash m = hash m' → m = m'

/-- There is no collision among finitely many messages of different hashes. -/
theorem Sha256.collisionFree_of_nodup {messages : List UInt8 → Prop} {ms : List (List UInt8)}
    (hmem : ∀ m, messages m → m ∈ ms) (hnodup : (ms.map hash).Nodup) : CollisionFree messages :=
  fun _ _ hm hm' h => List.inj_on_of_nodup_map hnodup (hmem _ hm) (hmem _ hm') h

/-- There is no collision if the messages, each taken once, have different hashes. -/
theorem Sha256.collisionFree_of_eraseDups {ms : List (List UInt8)}
    (h : (ms.eraseDups.map hash).Nodup) : CollisionFree (· ∈ ms) :=
  collisionFree_of_nodup (fun _ => List.mem_eraseDups.mpr) h

namespace Digest

/-- The bytes that are hashed for a payload in a domain. -/
def message (domain : Domain) (payload : List UInt8) : List UInt8 :=
  Bytes.utf8 "GAT:" ++ Bytes.utf8 domain.name ++ Bytes.utf8 ":v1" ++ Bytes.word64 payload.length
    ++ payload

theorem ofPayload_eq_hash (domain : Domain) (payload : List UInt8) :
    ofPayload domain payload = Sha256.hash (message domain payload) := rfl

/-- The payload stands at the end of its message. -/
theorem message_inj {domain : Domain} {payload payload' : List UInt8}
    (h : message domain payload = message domain payload') : payload = payload' := by
  unfold message at h
  exact (List.append_inj h (by simp)).2

/-- Equal digests are of one payload, without a collision. -/
theorem payload_eq_of_ofPayload_eq {messages : List UInt8 → Prop}
    (hfree : Sha256.CollisionFree messages) {domain : Domain} {payload payload' : List UInt8}
    (hmem : messages (message domain payload)) (hmem' : messages (message domain payload'))
    (h : ofPayload domain payload = ofPayload domain payload') : payload = payload' :=
  message_inj (hfree _ _ hmem hmem' h)

end Digest

end SortedRewriting
