import SortedRewriting.Digest.Basic

/-!
# Binary data items

An `Item` is a value of the binary format CBOR. `Item.encode` writes it in canonical form: lengths
are definite and every head is as short as its argument allows.
-/

namespace SortedRewriting.Cbor

/-- A data item. A map says whether its size stands in its first byte; only such a map of one entry
can be the value of a variant. -/
inductive Item where
  | unsigned (n : Nat)
  /-- The integer `-1 - n`. -/
  | negative (n : Nat)
  | bytes (bs : List UInt8)
  | text (s : String)
  | array (items : List Item)
  | map (direct : Bool) (entries : List (Item × Item))
  | tagged (tag : Nat) (item : Item)
  | bool (b : Bool)
  | null
  /-- A float, by the bytes behind its head. -/
  | float (bs : List UInt8)

/-- The major types, numbered as in the upper three bits of a head. -/
inductive Major where
  | unsigned
  | negative
  | bytes
  | text
  | array
  | map
  | tag
  | simple
  deriving DecidableEq

/-- The number of a major type. -/
def Major.code : Major → Nat
  | unsigned => 0
  | negative => 1
  | bytes => 2
  | text => 3
  | array => 4
  | map => 5
  | tag => 6
  | simple => 7

/-- The `k` low bytes of a number, most significant first. -/
def bigEndian : Nat → Nat → List UInt8
  | 0, _ => []
  | k + 1, n => UInt8.ofNat (n >>> (8 * k)) :: bigEndian k n

/-- The first byte of an item: its major type and five bits of information. -/
def headByte (major : Major) (info : Nat) : UInt8 := UInt8.ofNat (32 * major.code + info)

/-- The shortest head with an argument below `2 ^ 64`. -/
def head (major : Major) (n : Nat) : List UInt8 :=
  if n < 24 then [headByte major n]
  else if n < UInt8.size then headByte major 24 :: bigEndian 1 n
  else if n < UInt16.size then headByte major 25 :: bigEndian 2 n
  else if n < UInt32.size then headByte major 26 :: bigEndian 4 n
  else headByte major 27 :: bigEndian 8 n

namespace Item

mutual

/-- The bytes of an item. -/
def encode : Item → List UInt8
  | .unsigned n => head .unsigned n
  | .negative n => head .negative n
  | .bytes bs => head .bytes bs.length ++ bs
  | .text s => head .text (Bytes.utf8 s).length ++ Bytes.utf8 s
  | .array items => head .array items.length ++ encodeAll items
  | .map _ entries => head .map entries.length ++ encodeEntries entries
  | .tagged tag item => head .tag tag ++ encode item
  | .bool b => [headByte .simple (if b then 21 else 20)]
  | .null => [headByte .simple 22]
  | .float bs => headByte .simple (if bs.length = 2 then 25 else if bs.length = 4 then 26 else 27) :: bs

/-- The bytes of items, one behind the other. -/
def encodeAll : List Item → List UInt8
  | [] => []
  | i :: is => encode i ++ encodeAll is

/-- The bytes of the entries of a map, each key before its value. -/
def encodeEntries : List (Item × Item) → List UInt8
  | [] => []
  | (k, v) :: es => encode k ++ (encode v ++ encodeEntries es)

end

/-- An integer of 64 bits. -/
def ofInt64 (n : Int64) : Item :=
  if 0 ≤ n then .unsigned n.toInt.toNat else .negative (-1 - n.toInt).toNat

/-- A map whose keys are names. -/
def record (fields : List (String × Item)) : Item :=
  .map (fields.length < 24) (fields.map fun (name, i) => (.text name, i))

/-- The value of a variant with content: a map of one entry. -/
def variant (name : String) (content : Item) : Item := record [(name, content)]

end Item

end SortedRewriting.Cbor
