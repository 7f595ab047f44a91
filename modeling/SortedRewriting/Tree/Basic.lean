import SortedRewriting.Tree.Path

/-!
# Encoded trees

A `Tree` is a node with an integer tag and child slots, an empty slot (`vacant`), or `error`, the
value of a failed rewrite. `Tree.build` makes a node of a given width: it pads the children with
vacant slots, and an error among them, or a child too many, makes the whole node an error.

Selecting a child of anything but a node gives `error`, so `getAt` is total; `replaceAt` rebuilds
every ancestor of the replaced slot with `build`.
-/

namespace SortedRewriting

/-- An encoded term. -/
inductive Tree where
  | node (tag : Int64) (children : List Tree)
  | vacant
  | error

namespace Tree

/-! ## Equality and hashing -/

mutual

/-- Equality of trees is decided node by node. -/
def decEq : (x y : Tree) → Decidable (x = y)
  | .vacant, .vacant => .isTrue rfl
  | .error, .error => .isTrue rfl
  | .node t xs, .node t' ys =>
    if ht : t = t' then
      match decEqAll xs ys with
      | .isTrue h => .isTrue (by rw [ht, h])
      | .isFalse h => .isFalse (fun e => h (by cases e; rfl))
    else .isFalse (fun e => ht (by cases e; rfl))
  | .vacant, .error => .isFalse (by simp)
  | .vacant, .node _ _ => .isFalse (by simp)
  | .error, .vacant => .isFalse (by simp)
  | .error, .node _ _ => .isFalse (by simp)
  | .node _ _, .vacant => .isFalse (by simp)
  | .node _ _, .error => .isFalse (by simp)

/-- Equality of lists of trees. -/
def decEqAll : (xs ys : List Tree) → Decidable (xs = ys)
  | [], [] => .isTrue rfl
  | [], _ :: _ => .isFalse (by simp)
  | _ :: _, [] => .isFalse (by simp)
  | x :: xs, y :: ys =>
    match decEq x y with
    | .isFalse h => .isFalse (fun e => h (by cases e; rfl))
    | .isTrue h =>
      match decEqAll xs ys with
      | .isTrue h' => .isTrue (by rw [h, h'])
      | .isFalse h' => .isFalse (fun e => h' (by cases e; rfl))

end

instance : DecidableEq Tree := decEq

mutual

/-- A hash for sets of trees. -/
def hashCode : Tree → UInt64
  | .vacant => 11
  | .error => 13
  | .node t xs => mixHash (hash t) (hashCodeAll xs)

/-- A hash of a list of trees. -/
def hashCodeAll : List Tree → UInt64
  | [] => 7
  | x :: xs => mixHash (hashCode x) (hashCodeAll xs)

end

instance : Hashable Tree := ⟨hashCode⟩

/-- A property that passes from the children of a node to the node holds of every tree. -/
@[elab_as_elim, induction_eliminator]
theorem induction {motive : Tree → Prop}
    (node : ∀ tag children, (∀ c ∈ children, motive c) → motive (.node tag children))
    (vacant : motive .vacant) (error : motive .error) (x : Tree) : motive x :=
  @Tree.rec motive (fun cs => ∀ c ∈ cs, motive c) node vacant error
    (fun _ h => nomatch h)
    (fun _ _ head tail _ h => match h with
      | .head _ => head
      | .tail _ h => tail _ h) x

/-! ## Nodes -/

def isNode : Tree → Bool
  | node _ _ => true
  | _ => false

def isVacant : Tree → Bool
  | vacant => true
  | _ => false

def isError : Tree → Bool
  | error => true
  | _ => false

/-- A node of the given width, padded with vacant slots; `error` if a child is, or if there are
more children than slots. -/
def build (tag : Int64) (children : List Tree) (width : Nat) : Tree :=
  if width < children.length ∨ children.any isError then error
  else node tag (children ++ List.replicate (width - children.length) vacant)

@[simp] theorem isNode_iff {x : Tree} : x.isNode = true ↔ ∃ t cs, x = node t cs := by
  cases x <;> simp [isNode]

@[simp] theorem isVacant_iff {x : Tree} : x.isVacant = true ↔ x = vacant := by
  cases x <;> simp [isVacant]

@[simp] theorem isError_iff {x : Tree} : x.isError = true ↔ x = error := by
  cases x <;> simp [isError]

/-- A node is in error exactly when it has too many children or an error among them. -/
theorem build_eq_error_iff {tag : Int64} {children : List Tree} {width : Nat} :
    build tag children width = error ↔ width < children.length ∨ error ∈ children := by
  have h : children.any isError = true ↔ error ∈ children := by simp
  rw [build, ← h]
  split <;> simp_all

/-- The tag of a node; zero, which is no symbol's code, otherwise. -/
def tag : Tree → Int64
  | node t _ => t
  | _ => 0

/-- The children of a node. -/
def children : Tree → List Tree
  | node _ cs => cs
  | _ => []

/-- The child in a slot, or `error` where there is no such slot. -/
def child (x : Tree) (i : Nat) : Tree := x.children[i]?.getD error

/-! ## Paths -/

/-- The subtree at a path; `error` where the path leaves the tree. -/
def getAt (x : Tree) : Path → Tree
  | [] => x
  | i :: p => (x.child i).getAt p

/-- The tree with another subtree at a path; `error` where the path leaves the tree, or if the new
subtree is an error below the root. -/
def replaceAt (x : Tree) : Path → Tree → Tree
  | [], y => y
  | i :: p, y =>
    match x with
    | node t cs =>
      if i < cs.length then build t (cs.set i ((x.child i).replaceAt p y)) cs.length else error
    | _ => error

/-! ## Measures and text -/

mutual

/-- The number of nodes. -/
def size : Tree → Nat
  | .node _ cs => 1 + sizeAll cs
  | _ => 0

/-- The number of nodes in a list of trees. -/
def sizeAll : List Tree → Nat
  | [] => 0
  | c :: cs => size c + sizeAll cs

end

mutual

/-- The text of a tree: `None`, `Error`, or the tag and the children in brackets. -/
def text : Tree → String
  | .node t cs => s!"(ast {t.toInt}{textAll cs})"
  | .vacant => "None"
  | .error => "Error"

/-- The texts of the children, each behind a blank. -/
def textAll : List Tree → String
  | [] => ""
  | c :: cs => " " ++ text c ++ textAll cs

end

end Tree

end SortedRewriting
