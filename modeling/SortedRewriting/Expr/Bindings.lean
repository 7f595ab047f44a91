import SortedRewriting.Expr.Basic
import Std.Data.ExtTreeMap

/-!
# Bindings of pattern variables

`Bindings` maps variable names to expressions. The empty name is reserved: a dictionary that holds
it is *failed*, and `failed` is the one such dictionary that matching produces. Binding a name to a
sort, or to a second, different expression, fails; `merge` binds all entries of one dictionary in
another and is failed as soon as either is.
-/

namespace SortedRewriting

/-- Expressions bound to variable names; failed exactly when the empty name is bound. -/
structure Bindings where
  entries : Std.ExtTreeMap String Expr
  deriving DecidableEq

namespace Bindings

/-- The name that marks a failed match. -/
def failureName : String := ""

/-- No variable is bound. -/
def empty : Bindings := ⟨∅⟩

/-- The result of every failed match. -/
def failed : Bindings := ⟨(∅ : Std.ExtTreeMap String Expr).insert failureName (.node .sort "" [])⟩

def isFailed (d : Bindings) : Bool := d.entries.contains failureName

/-- The expression bound to a name; the reserved name is never bound. -/
def get? (d : Bindings) (name : String) : Option Expr :=
  if name = failureName then none else d.entries[name]?

/-- Binds one name. A failed dictionary stays as it is; a sort, or an expression other than the
one already bound, makes it `failed`. -/
def bind (d : Bindings) (name : String) (value : Expr) : Bindings :=
  if d.isFailed then d
  else if value.isSort then failed
  else match d.entries[name]? with
    | some bound => if bound = value then d else failed
    | none => ⟨d.entries.insert name value⟩

/-- The entries in name order. -/
def toList (d : Bindings) : List (String × Expr) := d.entries.toList

/-- Binds the pairs from left to right. -/
def bindAll (d : Bindings) (pairs : List (String × Expr)) : Bindings :=
  pairs.foldl (fun d (name, value) => d.bind name value) d

/-- Both dictionaries at once; failed if either is failed or they disagree on a name. -/
def merge (d d' : Bindings) : Bindings :=
  if d.isFailed || d'.isFailed then failed else d.bindAll d'.toList

def size (d : Bindings) : Nat := d.entries.size

def isEmpty (d : Bindings) : Bool := d.entries.isEmpty

end Bindings

end SortedRewriting
