import SortedRewriting.Symbolic.Term

/-!
# Named functions

A `FunDef` names a term over typed parameters. A `FunctionTable` keeps definitions of distinct
names in the order in which they were added.
-/

namespace SortedRewriting

/-- A named function: its parameters, the type of its result and its body. -/
structure FunDef where
  name : String
  params : List (String × Ty)
  result : Ty
  body : Term
  deriving DecidableEq

/-- The application of a function. -/
def FunDef.call (f : FunDef) (args : List Term) : Build Term := Build.apply f.name args f.result

/-- The environment of a call: each argument under its parameter, whose type it has to have. A
later parameter of the same name wins. -/
def FunDef.bindArgs (f : FunDef) (args : List Value) : Except EvalError Env :=
  if f.params.length ≠ args.length then .error (.arity f.name f.params.length args.length)
  else (f.params.zip args).foldlM (fun env ((name, ty), v) =>
    if v.ty = ty then .ok (env.insert name v) else .error (.mismatch ty v.ty)) ∅

/-- Definitions with distinct names, in the order of definition. -/
structure FunctionTable where
  defs : List FunDef
  distinct : (defs.map (·.name)).Nodup

namespace FunctionTable

/-- No function is defined. -/
def empty : FunctionTable := ⟨[], by simp⟩

def find? (t : FunctionTable) (name : String) : Option FunDef :=
  t.defs.find? (·.name == name)

def contains (t : FunctionTable) (name : String) : Bool := t.defs.any (·.name == name)

def size (t : FunctionTable) : Nat := t.defs.length

def isEmpty (t : FunctionTable) : Bool := t.defs.isEmpty

/-- Adds a definition at the end, unless its name is taken. -/
def insert? (t : FunctionTable) (f : FunDef) : Option FunctionTable :=
  if h : f.name ∈ t.defs.map (·.name) then none
  else some ⟨t.defs ++ [f], by
    rw [List.map_append, List.nodup_append]
    refine ⟨t.distinct, by simp, ?_⟩
    rintro a ha b hb rfl
    simp only [List.map_cons, List.map_nil, List.mem_singleton] at hb
    exact h (hb ▸ ha)⟩

/-- Adds definitions in order, and leaves out those whose name is taken. -/
def insertAll (t : FunctionTable) (fs : List FunDef) : FunctionTable :=
  fs.foldl (fun t f => (t.insert? f).getD t) t

end FunctionTable

end SortedRewriting
