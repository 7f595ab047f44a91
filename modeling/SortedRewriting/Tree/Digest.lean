import SortedRewriting.Digest.Basic
import SortedRewriting.Tree.Basic

/-!
# The fingerprint of a tree

The payload of a tree is a byte for its form, and for a node its tag, the number of its children
and their payloads, so that a tree can be read back from it.
-/

namespace SortedRewriting.Tree

mutual

/-- The bytes that the fingerprint covers. -/
def payload : Tree → List UInt8
  | .error => [0]
  | .vacant => [1]
  | .node t cs =>
    2 :: (Bytes.word64 t.toUInt64.toNat ++ (Bytes.word64 cs.length ++ payloadAll cs))

/-- The payloads of a list of trees, one behind the other. -/
def payloadAll : List Tree → List UInt8
  | [] => []
  | c :: cs => payload c ++ payloadAll cs

end

@[simp] theorem payloadAll_eq_flatMap (cs : List Tree) : payloadAll cs = cs.flatMap payload := by
  induction cs with
  | nil => rfl
  | cons c cs ih => rw [payloadAll, ih, List.flatMap_cons]

/-- The digest of a tree. -/
def fingerprint (x : Tree) : Digest := .ofPayload .tree x.payload

end SortedRewriting.Tree
