import SortedRewriting.Digest.Sha256

/-!
# Digests

A `Digest` is the SHA-256 hash of a payload in one of four `Digest.Domain`s. The hashed message starts
with the name of the domain and the length of the payload (`Digest.ofPayload`), so that no message
of one domain is a message of another.

Payloads are lists of bytes, built from little-endian words (`Bytes.word64`) and from texts behind
their length (`Bytes.text`).
-/

namespace SortedRewriting

/-! ## Byte layouts -/

namespace Bytes

/-- The eight bytes of a number, least significant first, modulo `2 ^ 64`. -/
def word64 (n : Nat) : List UInt8 :=
  (List.range 8).map fun i => UInt8.ofNat (n >>> (8 * i))

/-- The number of eight bytes, least significant first. -/
def ofWord64 : List UInt8 → Nat
  | [] => 0
  | b :: bs => b.toNat + 256 * ofWord64 bs

/-- The UTF-8 bytes of a text. -/
def utf8 (s : String) : List UInt8 := s.toByteArray.toList

/-- A text behind its length in bytes. -/
def text (s : String) : List UInt8 := word64 (utf8 s).length ++ utf8 s

/-- The digits of a byte in base 16, in lower case. -/
def hexByte (b : UInt8) : List Char :=
  [Nat.digitChar (b.toNat / 16), Nat.digitChar (b.toNat % 16)]

/-- Bytes in base 16, two digits each. -/
def hex (bs : List UInt8) : String := String.ofList (bs.flatMap hexByte)

end Bytes

/-! ## Digests -/

/-- The hash of a payload. -/
abbrev Digest := Vector UInt8 32

/-- Digests are ordered by their bytes, the first byte first. -/
instance : Std.TransOrd Digest := inferInstance

/-- What a digest is taken of. -/
inductive Digest.Domain where
  | exprNode
  | tree
  | fallbackCode
  | theory
  deriving DecidableEq

/-- The name of a domain at the start of its messages. -/
def Digest.Domain.name : Digest.Domain → String
  | exprNode => "EXPR_NODE_V1"
  | tree => "AST_V1"
  | fallbackCode => "FALLBACK_CODE_V1"
  | theory => "THEORY_V1"

namespace Digest

/-- The digest of a payload under the name of its domain. -/
def ofNamed (domain : List UInt8) (payload : List UInt8) : Digest :=
  Sha256.hash (Bytes.utf8 "GAT:" ++ domain ++ Bytes.utf8 ":v1" ++ Bytes.word64 payload.length
    ++ payload)

/-- The digest of a payload in a domain. -/
def ofPayload (domain : Domain) (payload : List UInt8) : Digest :=
  ofNamed (Bytes.utf8 domain.name) payload

/-- The first eight bytes as a number, least significant first. -/
def leadingWord (d : Digest) : Nat := Bytes.ofWord64 (d.toList.take 8)

/-- All 32 bytes in base 16. -/
def hex (d : Digest) : String := Bytes.hex d.toList

/-- A short form: the first four bytes. -/
def text (d : Digest) : String := "HashValue(" ++ Bytes.hex (d.toList.take 4) ++ "…)"

/-- The digest of 32 bytes. -/
def ofBytes? (bytes : List UInt8) : Option Digest :=
  if h : bytes.length = 32 then some ⟨bytes.toArray, by simpa using h⟩ else none

def isZero (d : Digest) : Bool := d.toList.all (· == 0)

end Digest

end SortedRewriting
