import SortedRewriting.Expr.Digest
import SortedRewriting.Theory.Basic

/-!
# The fingerprint of a theory

The fingerprint covers the name, the declarations by symbol and the rules in order: everything that
takes part in rewriting, but no print pattern and no description. Expressions enter by their
digests, lists behind their length.
-/

namespace SortedRewriting.Theory

/-- A list behind its length, each element in its own layout. -/
def payloadList {α : Type} (layout : α → List UInt8) (xs : List α) : List UInt8 :=
  Bytes.word64 xs.length ++ xs.flatMap layout

/-- The layout of an expression: its digest. -/
def exprPayload (e : Expr) : List UInt8 := e.digest.toList

/-- The layout of a sort constructor. -/
def sortPayload : String × SortDecl → List UInt8
  | (sym, d) => Bytes.text sym ++ payloadList exprPayload d.args

/-- The layout of an operator. -/
def opPayload : String × OpDecl → List UInt8
  | (sym, d) => Bytes.text sym ++ exprPayload d.sort ++ payloadList exprPayload d.args

/-- The layout of a rule. -/
def rulePayload (r : Rule) : List UInt8 :=
  Bytes.text r.name ++ exprPayload r.left ++ exprPayload r.right

/-- The bytes that the fingerprint covers. -/
def payload (t : Theory) : List UInt8 :=
  Bytes.text t.name ++ payloadList sortPayload t.sorts.toList ++ payloadList opPayload t.ops.toList
    ++ payloadList rulePayload t.rules

/-- The digest of the name, the declarations and the rules. -/
def fingerprint (t : Theory) : Digest := .ofPayload .theory t.payload

end SortedRewriting.Theory
