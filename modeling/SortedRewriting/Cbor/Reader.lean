import SortedRewriting.Cbor.Item

/-!
# Reading binary data items

`Item.decode` reads an item that takes up all bytes. It accepts heads of any length and indefinite
lengths too, and it follows at most `nestingLimit` nested arrays, maps and tags. Text has to be
valid UTF-8; where it comes in chunks, only the whole of it has to be.

The views that follow read an item as a value of a record or variant type. A field or variant may
be named by its text, by the bytes of its text, or by its number. Tags carry no meaning and are
looked through, except that a tagged array or map is no variant.
-/

namespace SortedRewriting.Cbor

/-- A reader of a prefix of the input. -/
abbrev Reader := StateT (List UInt8) Option

/-- The largest number of containers inside one another. -/
def nestingLimit : Nat := 127

namespace Reader

/-- The next byte. -/
def byte : Reader UInt8 := fun
  | [] => none
  | b :: bs => some (b, bs)

/-- The next `n` bytes. -/
def take (n : Nat) : Reader (List UInt8) := fun bs =>
  if n ≤ bs.length then some (bs.take n, bs.drop n) else none

/-- The number of bytes, most significant first. -/
def number (bs : List UInt8) : Nat := bs.foldl (fun n b => 256 * n + b.toNat) 0

/-- The argument of a head: a number, which may stand in the head itself, or no definite length. -/
inductive Argument where
  | definite (n : Nat) (direct : Bool)
  | indefinite
  deriving DecidableEq

/-- Reads the argument that the low five bits of a head announce. -/
def argument (info : Nat) : Reader Argument :=
  if info < 24 then return .definite info true
  else match info with
    | 24 => return .definite (number (← take 1)) false
    | 25 => return .definite (number (← take 2)) false
    | 26 => return .definite (number (← take 4)) false
    | 27 => return .definite (number (← take 8)) false
    | 31 => return .indefinite
    | _ => failure

/-- Reads an argument that is a number. -/
def definiteArgument (info : Nat) : Reader Nat := do
  match ← argument info with
  | .definite n _ => return n
  | .indefinite => failure

/-- The byte that ends an indefinite length. -/
def breakByte : UInt8 := 0xff

/-- Reads `n` items. -/
def many {α : Type} (item : Reader α) : Nat → Reader (List α)
  | 0 => return []
  | n + 1 => do
    let a ← item
    let as ← many item n
    return a :: as

/-- Reads items up to the byte that ends them, at most `n`. -/
def untilBreak {α : Type} (item : Reader α) : Nat → Reader (List α)
  | 0 => failure
  | n + 1 => do
    match (← get).head? with
    | none => failure
    | some b =>
      if b = breakByte then
        let _ ← byte
        return []
      else
        let a ← item
        let as ← untilBreak item n
        return a :: as

/-- Reads items up to the byte that ends them. Each takes a byte at least. -/
def allUntilBreak {α : Type} (item : Reader α) : Reader (List α) := do
  untilBreak item ((← get).length + 1)

/-- Reads one chunk of a string of the given major type. -/
def chunk (major : Major) : Reader (List UInt8) := do
  let b ← byte
  if b.toNat / 32 = major.code then take (← definiteArgument (b.toNat % 32)) else failure

/-- Reads the content of a string, in one piece or in chunks. -/
def string (major : Major) (info : Nat) : Reader (List UInt8) := do
  match ← argument info with
  | .definite n _ => take n
  | .indefinite => return (← allUntilBreak (chunk major)).flatten

/-- The text of valid UTF-8. -/
def utf8 (bs : List UInt8) : Reader String :=
  match String.fromUTF8? bs.toByteArray with
  | some s => return s
  | none => failure

/-- Reads a simple value or a float. -/
def simple : Nat → Reader Item
  | 20 => return .bool false
  | 21 => return .bool true
  | 22 => return .null
  | 23 => return .null
  | 25 => return .float (← take 2)
  | 26 => return .float (← take 4)
  | 27 => return .float (← take 8)
  | _ => failure

/-- Reads as many items as an argument says. -/
def counted {α : Type} (item : Reader α) : Argument → Reader (List α)
  | .definite n _ => many item n
  | .indefinite => allUntilBreak item

/-- Whether an argument stands in the head. -/
def Argument.isDirect : Argument → Bool
  | definite _ direct => direct
  | indefinite => false

/-- Reads an entry of a map. -/
def entry (item : Reader Item) : Reader (Item × Item) := do
  let k ← item
  let v ← item
  return (k, v)

/-- Reads the content of a container, whose items `item` reads. -/
def container (item : Reader Item) (major info : Nat) : Reader Item :=
  match major with
  | 4 => do return .array (← counted item (← argument info))
  | 5 => do
    let size ← argument info
    return .map size.isDirect (← counted (entry item) size)
  | _ => do
    let tag ← definiteArgument info
    return .tagged tag (← item)

/-- Reads an item with at most `depth` containers inside one another. -/
def item (depth : Nat) : Reader Item := do
  let b ← byte
  let info := b.toNat % 32
  match b.toNat / 32 with
  | 0 => return .unsigned (← definiteArgument info)
  | 1 => return .negative (← definiteArgument info)
  | 2 => return .bytes (← string .bytes info)
  | 3 => return .text (← utf8 (← string .text info))
  | 7 => simple info
  | major =>
    match depth with
    | 0 => failure
    | depth + 1 => container (item depth) major info

end Reader

namespace Item

/-- The item that takes up all bytes. -/
def decode (bs : List UInt8) : Option Item :=
  match Reader.item nestingLimit bs with
  | some (i, []) => some i
  | _ => none

/-! ## Views -/

/-- The item under its tags. -/
def bare : Item → Item
  | tagged _ i => bare i
  | i => i

/-- A number below a bound. -/
def asNat? (bound : Nat) (i : Item) : Option Nat :=
  match i.bare with
  | unsigned n => if n < bound then some n else none
  | _ => none

/-- The word of an integer that 64 bits hold. -/
def word? (n : Int) : Option Int64 :=
  if (Int64.ofInt n).toInt = n then some (Int64.ofInt n) else none

/-- An integer of 64 bits. -/
def asInt64? (i : Item) : Option Int64 :=
  match i.bare with
  | unsigned n => word? n
  | negative n => word? (-1 - n)
  | _ => none

def asBool? (i : Item) : Option Bool :=
  match i.bare with
  | bool b => some b
  | _ => none

def asArray? (i : Item) : Option (List Item) :=
  match i.bare with
  | array items => some items
  | _ => none

def asMap? (i : Item) : Option (List (Item × Item)) :=
  match i.bare with
  | map _ entries => some entries
  | _ => none

/-- A text, or bytes that spell one. -/
def asText? (i : Item) : Option String :=
  match i.bare with
  | text s => some s
  | bytes bs => String.fromUTF8? bs.toByteArray
  | _ => none

/-- Which of the names a key stands for: the name itself, its bytes, or its number. A name or
number that is none of them gives the inner `none`, a key of another kind the outer. -/
def nameIndex? (names : List String) (i : Item) : Option (Option Nat) :=
  match i.bare with
  | unsigned n => some (if n < names.length then some n else none)
  | text s => some (names.idxOf? s)
  | bytes bs => some ((names.map Bytes.utf8).idxOf? bs)
  | _ => none

/-- The values of the fields in a map: unknown fields are passed over, a repeated one is an
error. -/
def collectFields (names : List String) (found : List (Nat × Item)) :
    List (Item × Item) → Option (List (Nat × Item))
  | [] => some found
  | (key, value) :: rest => do
    match ← nameIndex? names key with
    | none => collectFields names found rest
    | some i =>
      if (found.lookup i).isSome then none else collectFields names ((i, value) :: found) rest

/-- The values of the fields of a record: a map with every field once, in any order, or an array of
the values in the order of the fields. -/
def asRecord? (names : List String) (i : Item) : Option (List Item) :=
  match i.bare with
  | array items => if items.length = names.length then some items else none
  | map _ entries => do
    let found ← collectFields names [] entries
    (List.range names.length).mapM fun i => found.lookup i
  | _ => none

/-- Null, which stands for no content. -/
def isNull (i : Item) : Bool :=
  match i.bare with
  | null => true
  | _ => false

/-- A variant by number, with its content if it has any. The content comes in a map of one entry,
or second in an array of two; neither may be tagged. -/
def asVariant? (names : List String) : Item → Option (Nat × Option Item)
  | map true [(key, content)] => do return (← (← nameIndex? names key), some content)
  | array [key, content] => do return (← (← nameIndex? names key), some content)
  | map _ _ => none
  | array _ => none
  | key => do return (← (← nameIndex? names key), none)

/-- A variant without content, or with none to speak of. -/
def asUnitVariant? (names : List String) (i : Item) : Option Nat := do
  match ← asVariant? names i with
  | (n, none) => return n
  | (n, some content) => if content.isNull then return n else none

end Item

end SortedRewriting.Cbor
