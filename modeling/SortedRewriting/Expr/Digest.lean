import SortedRewriting.Digest.Basic
import SortedRewriting.Expr.Matching

/-!
# Digests of subterms, and classes of equal subterms

The digest of an expression covers its kind, its symbol and the digests of its children
(`Expr.digest`). `occurrences` lists every position with its subterm and digest. Two groupings rest
on it: `representatives` maps each digest to the first position that has it, and `classes` puts
positions together when digest and subterm agree, so that a class holds one subterm whatever
digests coincide.
-/

namespace SortedRewriting

/-- The byte of a kind in digests. -/
def Kind.code : Kind → UInt8
  | var => 0
  | app => 1
  | sort => 2

namespace Expr

/-- The payload of a node: kind, symbol, and the digests of the children behind their number. -/
def nodePayload (kind : Kind) (sym : String) (children : List Digest) : List UInt8 :=
  kind.code :: (Bytes.text sym ++ Bytes.word64 children.length ++ children.flatMap (·.toList))

mutual

/-- The digest of an expression. -/
def digest : Expr → Digest
  | .node k s as => .ofPayload .exprNode (nodePayload k s (digestAll as))

/-- The digests of a list of expressions. -/
def digestAll : List Expr → List Digest
  | [] => []
  | a :: as => digest a :: digestAll as

end

@[simp] theorem digestAll_eq_map (as : List Expr) : digestAll as = as.map digest := by
  induction as with
  | nil => rfl
  | cons a as ih => rw [digestAll, ih, List.map_cons]

/-! ## Occurrences -/

/-- A subterm where it occurs. -/
structure Occurrence where
  position : Position
  term : Expr
  digest : Digest

/-- The same occurrence, seen from the parent of which the expression is child `i`. -/
def Occurrence.below (i : Nat) (o : Occurrence) : Occurrence := { o with position := i :: o.position }

mutual

/-- The digest of an expression with its occurrences; each digest is computed once, from those of
the children. -/
def digested : Expr → Digest × List Occurrence
  | .node k s as =>
    let (children, below) := digestedFrom 0 as
    let d := .ofPayload .exprNode (nodePayload k s children)
    (d, ⟨[], .node k s as, d⟩ :: below)

/-- The digests and the occurrences of consecutive children, the first of which has index `i`. -/
def digestedFrom (i : Nat) : List Expr → List Digest × List Occurrence
  | [] => ([], [])
  | a :: as =>
    let (d, os) := digested a
    let (ds, rest) := digestedFrom (i + 1) as
    (d :: ds, os.map (.below i) ++ rest)

end

/-- All occurrences of subterms, in the order of positions. -/
def occurrences (e : Expr) : List Occurrence := e.digested.2

mutual

theorem digested_eq : (e : Expr) →
    e.digested = (e.digest, e.subterms.map fun (p, t) => ⟨p, t, t.digest⟩)
  | .node k s as => by
    simp only [digested, digest, subterms, digestedFrom_eq 0 as, List.map_cons]

theorem digestedFrom_eq (i : Nat) : (as : List Expr) →
    digestedFrom i as = (digestAll as, (subtermsFrom i as).map fun (p, t) => ⟨p, t, t.digest⟩)
  | [] => rfl
  | a :: as => by
    simp [digestedFrom, digestAll, subtermsFrom, digested_eq a, digestedFrom_eq (i + 1) as,
      Occurrence.below]

end

/-- An occurrence is a position with its subterm and the digest of that. -/
theorem occurrences_eq (e : Expr) :
    e.occurrences = e.subterms.map fun (p, t) => ⟨p, t, t.digest⟩ := by
  rw [occurrences, digested_eq]

/-- The digest of every position, in the order of positions. -/
def positionDigests (e : Expr) : List (Position × Digest) :=
  e.occurrences.map fun o => (o.position, o.digest)

/-- The first position of each digest that occurs. -/
def representatives (e : Expr) : Std.ExtTreeMap Digest Position :=
  e.occurrences.foldl (fun reps o => reps.insertIfNew o.digest o.position) ∅

/-! ## Classes of equal subterms -/

/-- The positions of one subterm, the first of them its representative. -/
structure SubtermClass where
  digest : Digest
  term : Expr
  representative : Position
  others : List Position

namespace SubtermClass

def positions (c : SubtermClass) : List Position := c.representative :: c.others

/-- Adds an occurrence to the class of its subterm, or opens a class for it at the end. -/
def place : List SubtermClass → Occurrence → List SubtermClass
  | [], o => [⟨o.digest, o.term, o.position, []⟩]
  | c :: cs, o =>
    if c.digest = o.digest ∧ c.term = o.term then
      { c with others := c.others ++ [o.position] } :: cs
    else c :: place cs o

end SubtermClass

/-- The classes of equal subterms, by first position; positions are in order inside a class. -/
def classes (e : Expr) : List SubtermClass :=
  e.occurrences.foldl SubtermClass.place []

end Expr

end SortedRewriting
