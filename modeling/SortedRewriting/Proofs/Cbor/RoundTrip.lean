import SortedRewriting.Proofs.Cbor.Prefix
import SortedRewriting.Proofs.Digest.Layout

/-!
# Items are read back from their bytes

An item is written in canonical form, with the shortest heads. What is read back is the item
(`Reader.item_encode`), if its numbers and lengths are below `2 ^ 64`, a map says truly whether its
size stands in its head (`Item.Canonical`), and no more containers are nested than are followed
(`Item.nesting`).

* `head_eq`: a head is a byte and an argument behind it, which gives back the number.
* **`Item.decode_encode`**: the bytes of an item decode to it.
-/

namespace SortedRewriting.Cbor

/-! ## Heads -/

namespace Reader

theorem length_bigEndian (k n : Nat) : (bigEndian k n).length = k := by
  induction k with
  | zero => rfl
  | succ k ih => rw [bigEndian, List.length_cons, ih]

theorem foldl_bigEndian (k n acc : Nat) :
    (bigEndian k n).foldl (fun m b => 256 * m + b.toNat) acc = 256 ^ k * acc + n % 256 ^ k := by
  induction k generalizing acc with
  | zero => rw [bigEndian, List.foldl_nil, pow_zero, Nat.one_mul, Nat.mod_one, Nat.add_zero]
  | succ k ih =>
    have hbyte : (UInt8.ofNat (n >>> (8 * k))).toNat = n / 256 ^ k % 256 := by
      rw [UInt8.toNat_ofNat', Nat.shiftRight_eq_div_pow, Nat.pow_mul]
    rw [bigEndian, List.foldl_cons, ih, hbyte, Nat.pow_succ, Nat.mod_mul, Nat.mul_add,
      Nat.mul_assoc, Nat.add_assoc, Nat.add_comm (n % 256 ^ k)]

/-- The bytes of a number give it back. -/
theorem number_bigEndian {k n : Nat} (hn : n < 256 ^ k) : number (bigEndian k n) = n := by
  rw [number, foldl_bigEndian, Nat.mul_zero, Nat.zero_add, Nat.mod_eq_of_lt hn]

theorem take_append {bs : List UInt8} {n : Nat} (h : bs.length = n) (rest : List UInt8) :
    take n (bs ++ rest) = some (bs, rest) := by
  subst h
  rw [take, if_pos (by rw [List.length_append]; exact Nat.le_add_right _ _), List.take_left,
    List.drop_left]

/-- A first reader that succeeds is followed by the second. -/
theorem bind_of_eq {α β : Type} {r : Reader α} {f : α → Reader β} {bs bs' : List UInt8} {a : α}
    (h : r bs = some (a, bs')) : (r >>= f) bs = f a bs' := by
  show (r bs).bind (fun p => f p.1 p.2) = _
  rw [h]
  rfl

/-- An argument of a fixed width is read back. -/
theorem argument_bigEndian {k n : Nat} (hn : n < 256 ^ k) (rest : List UInt8) :
    (take k >>= fun bs => pure (Argument.definite (number bs) false)) (bigEndian k n ++ rest) =
      some (.definite n false, rest) := by
  rw [bind_of_eq (take_append (length_bigEndian k n) rest), number_bigEndian hn]
  rfl

end Reader

theorem headByte_toNat (major : Major) {info : Nat} (h : info < 32) :
    (headByte major info).toNat = 32 * major.code + info := by
  have hcode : major.code ≤ 7 := by cases major <;> decide
  rw [headByte, UInt8.toNat_ofNat', Nat.mod_eq_of_lt (by omega)]

/-- A head is a byte, which announces how the number is read that follows. -/
theorem head_eq (major : Major) {n : Nat} (hn : n < 2 ^ 64) :
    ∃ info tail, info < 32 ∧ head major n = headByte major info :: tail ∧
      ∀ rest, Reader.argument info (tail ++ rest) = some (.definite n (n < 24), rest) := by
  unfold head
  split
  · rename_i h
    refine ⟨n, [], by omega, rfl, fun rest => ?_⟩
    unfold Reader.argument
    rw [if_pos h, decide_eq_true h]
    rfl
  · rename_i h
    rw [decide_eq_false h]
    split
    · rename_i h'
      exact ⟨24, _, by decide, rfl, Reader.argument_bigEndian h'⟩
    · split
      · rename_i h'
        exact ⟨25, _, by decide, rfl, Reader.argument_bigEndian h'⟩
      · split
        · rename_i h'
          exact ⟨26, _, by decide, rfl, Reader.argument_bigEndian h'⟩
        · exact ⟨27, _, by decide, rfl, Reader.argument_bigEndian hn⟩

/-! ## Items -/

namespace Item

mutual

/-- The number of containers inside one another. -/
def nesting : Item → Nat
  | .array items => nestingAll items + 1
  | .map _ entries => nestingEntries entries + 1
  | .tagged _ item => nesting item + 1
  | _ => 0

/-- The number of containers inside one another, in the item with most. -/
def nestingAll : List Item → Nat
  | [] => 0
  | i :: is => max (nesting i) (nestingAll is)

/-- The number of containers inside one another, in the entry with most. -/
def nestingEntries : List (Item × Item) → Nat
  | [] => 0
  | (k, v) :: es => max (max (nesting k) (nesting v)) (nestingEntries es)

end

theorem nestingAll_le_iff {items : List Item} {d : Nat} :
    nestingAll items ≤ d ↔ ∀ i ∈ items, i.nesting ≤ d := by
  induction items with
  | nil => simp [nestingAll]
  | cons i items ih => rw [nestingAll, Nat.max_le, ih, List.forall_mem_cons]

theorem nestingEntries_le_iff {entries : List (Item × Item)} {d : Nat} :
    nestingEntries entries ≤ d ↔ ∀ e ∈ entries, e.1.nesting ≤ d ∧ e.2.nesting ≤ d := by
  induction entries with
  | nil => simp [nestingEntries]
  | cons e entries ih => rw [nestingEntries, Nat.max_le, Nat.max_le, ih, List.forall_mem_cons]

/-- The items that are read back from their bytes: numbers and lengths have at most 64 bits, a map
says truly whether its size stands in its head, and floats have one of their three widths. -/
inductive Canonical : Item → Prop
  | unsigned {n : Nat} (bound : n < 2 ^ 64) : Canonical (.unsigned n)
  | negative {n : Nat} (bound : n < 2 ^ 64) : Canonical (.negative n)
  | bytes {bs : List UInt8} (bound : bs.length < 2 ^ 64) : Canonical (.bytes bs)
  | text {s : String} (bound : (Bytes.utf8 s).length < 2 ^ 64) : Canonical (.text s)
  | array {items : List Item} (bound : items.length < 2 ^ 64) (each : ∀ i ∈ items, Canonical i) :
      Canonical (.array items)
  | map {entries : List (Item × Item)} (bound : entries.length < 2 ^ 64)
      (keys : ∀ e ∈ entries, Canonical e.1) (values : ∀ e ∈ entries, Canonical e.2) :
      Canonical (.map (entries.length < 24) entries)
  | tagged {tag : Nat} {i : Item} (bound : tag < 2 ^ 64) (item : Canonical i) :
      Canonical (.tagged tag i)
  | bool (b : Bool) : Canonical (.bool b)
  | null : Canonical .null
  | float {bs : List UInt8} (width : bs.length = 2 ∨ bs.length = 4 ∨ bs.length = 8) :
      Canonical (.float bs)

theorem encodeAll_eq_flatMap (items : List Item) : encodeAll items = items.flatMap encode := by
  induction items with
  | nil => rfl
  | cons i items ih => rw [encodeAll, ih, List.flatMap_cons]

theorem encodeEntries_eq_flatMap (entries : List (Item × Item)) :
    encodeEntries entries = entries.flatMap fun e => e.1.encode ++ e.2.encode := by
  induction entries with
  | nil => rfl
  | cons e entries ih => rw [encodeEntries, ih, List.flatMap_cons, List.append_assoc]

end Item

namespace Reader

/-- What is read behind the first byte of an item, by its major type and information. -/
def content (d major info : Nat) : Reader Item :=
  match major with
  | 0 => do return .unsigned (← definiteArgument info)
  | 1 => do return .negative (← definiteArgument info)
  | 2 => do return .bytes (← string .bytes info)
  | 3 => do return .text (← utf8 (← string .text info))
  | 7 => simple info
  | major =>
    match d with
    | 0 => failure
    | d + 1 => container (item d) major info

theorem item_cons (d : Nat) (b : UInt8) (bs : List UInt8) :
    item d (b :: bs) = content d (b.toNat / 32) (b.toNat % 32) bs := by
  rw [item]
  rfl

/-- The first byte of an item says how the rest is read. -/
theorem item_headByte (d : Nat) (major : Major) {info : Nat} (hinfo : info < 32) (bs : List UInt8) :
    item d (headByte major info :: bs) = content d major.code info bs := by
  have hmajor : (32 * major.code + info) / 32 = major.code := by omega
  have hmod : (32 * major.code + info) % 32 = info := by omega
  rw [item_cons, headByte_toNat major hinfo, hmajor, hmod]

/-- Behind its first byte, an item with a number in its head starts with this number. -/
theorem item_head (d : Nat) (major : Major) {n : Nat} (hn : n < 2 ^ 64) (bs : List UInt8) :
    ∃ info bs', item d (head major n ++ bs) = content d major.code info bs' ∧
      argument info bs' = some (.definite n (n < 24), bs) := by
  obtain ⟨info, tail, hinfo, hhead, hread⟩ := head_eq major hn
  refine ⟨info, tail ++ bs, ?_, hread bs⟩
  rw [hhead, List.cons_append, item_headByte d major hinfo]

theorem definiteArgument_of_eq {info n : Nat} {direct : Bool} {bs rest : List UInt8}
    (h : argument info bs = some (.definite n direct, rest)) :
    definiteArgument info bs = some (n, rest) := bind_of_eq h

theorem string_of_eq {major : Major} {info : Nat} {direct : Bool} {bs s rest : List UInt8}
    (h : argument info bs = some (.definite s.length direct, s ++ rest)) :
    string major info bs = some (s, rest) :=
  (bind_of_eq h).trans (take_append rfl rest)

theorem utf8_utf8 (s : String) (bs : List UInt8) : utf8 (Bytes.utf8 s) bs = some (s, bs) := by
  unfold utf8
  rw [Bytes.fromUTF8?_utf8]
  rfl

/-- Items one behind the other are read one after the other. -/
theorem many_flatMap {α : Type} {r : Reader α} {enc : α → List UInt8} {as : List α}
    (h : ∀ a ∈ as, ∀ rest, r (enc a ++ rest) = some (a, rest)) (rest : List UInt8) :
    many r as.length (as.flatMap enc ++ rest) = some (as, rest) := by
  induction as with
  | nil => rfl
  | cons a as ih =>
    obtain ⟨ha, has⟩ := List.forall_mem_cons.mp h
    rw [List.flatMap_cons, List.append_assoc, List.length_cons, many, bind_of_eq (ha _),
      bind_of_eq (ih has)]
    rfl

/-- **An item is read back from its bytes**, whatever follows them. -/
theorem item_encode {i : Item} (hi : i.Canonical) {d : Nat} (hd : i.nesting ≤ d)
    (rest : List UInt8) : item d (i.encode ++ rest) = some (i, rest) := by
  induction hi generalizing d rest with
  | @unsigned n bound =>
    obtain ⟨info, bs', hitem, hread⟩ := item_head d .unsigned bound rest
    exact hitem.trans (bind_of_eq (definiteArgument_of_eq hread))
  | @negative n bound =>
    obtain ⟨info, bs', hitem, hread⟩ := item_head d .negative bound rest
    exact hitem.trans (bind_of_eq (definiteArgument_of_eq hread))
  | @bytes bs bound =>
    obtain ⟨info, bs', hitem, hread⟩ := item_head d .bytes bound (bs ++ rest)
    rw [Item.encode, List.append_assoc, hitem]
    exact bind_of_eq (string_of_eq hread)
  | @text s bound =>
    obtain ⟨info, bs', hitem, hread⟩ := item_head d .text bound (Bytes.utf8 s ++ rest)
    rw [Item.encode, List.append_assoc, hitem]
    exact (bind_of_eq (string_of_eq hread)).trans (bind_of_eq (utf8_utf8 s rest))
  | @array items bound each ih =>
    obtain ⟨d, rfl⟩ : ∃ k, d = k + 1 := ⟨d - 1, by rw [Item.nesting] at hd; omega⟩
    have hnesting := Item.nestingAll_le_iff.mp (Nat.le_of_succ_le_succ hd)
    obtain ⟨info, bs', hitem, hread⟩ :=
      item_head (d + 1) .array bound (Item.encodeAll items ++ rest)
    have hmany := many_flatMap (fun i hi => ih i hi (hnesting i hi)) rest
    rw [Item.encode, List.append_assoc, hitem]
    rw [← Item.encodeAll_eq_flatMap] at hmany
    exact (bind_of_eq hread).trans (bind_of_eq hmany)
  | @map entries bound keys values ihk ihv =>
    obtain ⟨d, rfl⟩ : ∃ k, d = k + 1 := ⟨d - 1, by rw [Item.nesting] at hd; omega⟩
    have hnesting := Item.nestingEntries_le_iff.mp (Nat.le_of_succ_le_succ hd)
    obtain ⟨info, bs', hitem, hread⟩ :=
      item_head (d + 1) .map bound (Item.encodeEntries entries ++ rest)
    have hentry : ∀ e ∈ entries, ∀ rest, entry (item d) (e.1.encode ++ e.2.encode ++ rest) =
        some (e, rest) := fun e he rest => by
      rw [List.append_assoc]
      exact (bind_of_eq (ihk e he (hnesting e he).1 _)).trans
        (bind_of_eq (ihv e he (hnesting e he).2 rest))
    have hmany := many_flatMap hentry rest
    rw [Item.encode, List.append_assoc, hitem]
    rw [← Item.encodeEntries_eq_flatMap] at hmany
    exact (bind_of_eq hread).trans (bind_of_eq hmany)
  | @tagged tag i bound item ih =>
    obtain ⟨d, rfl⟩ : ∃ k, d = k + 1 := ⟨d - 1, by rw [Item.nesting] at hd; omega⟩
    obtain ⟨info, bs', hitem, hread⟩ := item_head (d + 1) .tag bound (i.encode ++ rest)
    rw [Item.encode, List.append_assoc, hitem]
    exact (bind_of_eq (definiteArgument_of_eq hread)).trans
      (bind_of_eq (ih (Nat.le_of_succ_le_succ hd) rest))
  | bool b => cases b <;> exact item_headByte d .simple (by decide) rest
  | null => exact item_headByte d .simple (by decide) rest
  | @float bs width =>
    rw [Item.encode, List.cons_append]
    rcases width with h | h | h <;> rw [h] <;>
      exact (item_headByte d .simple (by decide) _).trans (bind_of_eq (take_append h rest))

end Reader

namespace Item

variable {i : Item}

/-- **The bytes of an item decode to it.** -/
theorem decode_encode (hi : i.Canonical) (hnesting : i.nesting ≤ nestingLimit) :
    decode i.encode = some i := by
  have h := Reader.item_encode hi hnesting []
  rw [List.append_nil] at h
  exact decode_eq_some_iff.mpr h

end Item

end SortedRewriting.Cbor
