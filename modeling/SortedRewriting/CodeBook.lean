import SortedRewriting.Theory.Elaboration
import SortedRewriting.Tree.Basic
import SortedRewriting.Digest.Basic

/-!
# Codes of symbols

The tag of an encoded node is the code of its symbol. Three ranges of codes do not meet:

* the symbols of the theory are numbered from one, in the order of symbols;
* any other symbol takes a code from `2 ^ 40` on, from a digest of its name (`fallbackCode`);
* the variables that a rewrite step introduces take negative codes, `-(step * stride + index)`
  with `1 ≤ index < stride` (`freshCode`).

`CodeBook.encode` turns an expression into a tree, `decode` reads it back. The kind of a node is
not stored: it follows from what the theory declares its symbol to be.
-/

namespace SortedRewriting

/-- The codes of a theory's symbols, and the names that codes decode to. -/
structure CodeBook where
  codes : Std.ExtTreeMap String Int64
  names : Std.ExtTreeMap Int64 String
  kinds : Std.ExtTreeMap String Kind
  stride : Nat

/-- Why a tree does not decode. -/
inductive DecodeError where
  | notNode (found : Tree)
  | unknownCode (code : Int64)
  | malformed (error : ShapeError)
  deriving DecidableEq

/-- The text of a failed decoding. -/
def DecodeError.message : DecodeError → String
  | notNode found => "expected a node, found " ++ found.text
  | unknownCode code => s!"no symbol for code {code.toInt}"
  | malformed error => "decoded term is malformed: " ++ error.message

namespace CodeBook

/-- The first code that no symbol of a theory has: `2 ^ 40`. -/
def fallbackBase : Nat := 0x10000000000

/-- The number of variables that the side of a rule produced in one direction introduces. -/
def introducedCount (r : Rule) (dir : Direction) : Nat :=
  ((r.produced dir).varsOutside (r.matched dir)).length

/-- One more than the number of variables that any rule introduces. -/
def strideOf (rules : List Rule) : Nat :=
  (rules.map fun r => max (introducedCount r .forward) (introducedCount r .reverse)).foldl max 0 + 1

/-- The symbols of a theory with their codes. -/
def numbering (t : Theory) : List (String × Int64) :=
  (t.symbols.toList.zipIdx 1).map fun (s, n) => (s, Int64.ofNat n)

/-- The code book of a theory. -/
def ofTheory (t : Theory) : CodeBook where
  codes := .ofList (numbering t)
  names := .ofList ((numbering t).map fun (s, c) => (c, s))
  kinds := .ofList (t.ops.keys.map (·, Kind.app) ++ t.sorts.keys.map (·, Kind.sort))
  stride := strideOf t.rules

/-! ## Codes -/

/-- The code of a symbol that the theory does not mention. -/
def fallbackCode (sym : String) : Int64 :=
  Int64.ofNat (fallbackBase
    + (Digest.ofPayload .fallbackCode (Bytes.utf8 sym)).leadingWord % fallbackBase)

/-- The code of a symbol of the theory. -/
def theoryCode? (b : CodeBook) (sym : String) : Option Int64 := b.codes[sym]?

/-- The code of any symbol. -/
def code (b : CodeBook) (sym : String) : Int64 := (b.theoryCode? sym).getD (fallbackCode sym)

/-- The code of the `index`-th variable that a step introduces, counted from one. -/
def freshCode (b : CodeBook) (step : Int64) (index : Nat) : Int64 :=
  -(step * Int64.ofNat b.stride + Int64.ofNat index)

/-- The name of an introduced variable. -/
def freshName (step index : Nat) : String := s!"_v{step}_{index}"

/-- The symbol of a code: for a negative code the name of an introduced variable, otherwise the
symbol on record. The least code, whose negation wraps around to itself, has none. -/
def symbol? (b : CodeBook) (code : Int64) : Option String :=
  if code < 0 then
    let n := (-code).toNatClampNeg
    if n % b.stride = 0 then none else some (freshName (n / b.stride) (n % b.stride))
  else b.names[code]?

/-- Records a symbol outside the theory under its code, which keeps an earlier name. -/
def registerSymbol (b : CodeBook) (sym : String) : CodeBook :=
  if b.codes.contains sym then b
  else { b with names := b.names.insertIfNew (fallbackCode sym) sym }

/-- Records every symbol of an expression, in the order of symbols. -/
def register (b : CodeBook) (e : Expr) : CodeBook :=
  e.symbols.toList.foldl registerSymbol b

/-! ## Encoding and decoding -/

mutual

/-- The tree of an expression, every node of the given width. -/
def encode (b : CodeBook) (width : Nat) : Expr → Tree
  | .node _ s as => .build (b.code s) (encodeAll b width as) width

/-- The trees of a list of expressions. -/
def encodeAll (b : CodeBook) (width : Nat) : List Expr → List Tree
  | [] => []
  | a :: as => encode b width a :: encodeAll b width as

end

@[simp] theorem encodeAll_eq_map (b : CodeBook) (width : Nat) (as : List Expr) :
    encodeAll b width as = as.map (encode b width) := by
  induction as with
  | nil => rfl
  | cons a as ih => rw [encodeAll, ih, List.map_cons]

/-- The kind of a symbol: as the theory declares it, and otherwise a variable. -/
def kindOf (b : CodeBook) (sym : String) : Kind := b.kinds[sym]?.getD .var

mutual

/-- The expression of a tree. -/
def decode (b : CodeBook) : Tree → Except DecodeError Expr
  | .node t cs =>
    match b.symbol? t with
    | none => .error (.unknownCode t)
    | some s => do
      let as ← decodeAll b cs
      match Expr.build (b.kindOf s) s as with
      | .ok e => .ok e
      | .error e => .error (.malformed e)
  | .vacant => .error (.notNode .vacant)
  | .error => .error (.notNode .error)

/-- The expressions of the children, from left to right, without the vacant slots. -/
def decodeAll (b : CodeBook) : List Tree → Except DecodeError (List Expr)
  | [] => .ok []
  | c :: cs =>
    if c.isVacant then decodeAll b cs
    else do
      let a ← decode b c
      let as ← decodeAll b cs
      return a :: as

end

end CodeBook

end SortedRewriting
