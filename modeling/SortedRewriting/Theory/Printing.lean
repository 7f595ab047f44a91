import SortedRewriting.Expr.Printing
import SortedRewriting.Theory.Elaboration

/-!
# Printing with the declared patterns

A print pattern holds a slot `{}` for each operand. `Theory.render` fills the slots of the declared
pattern; where the number of slots is not the number of operands, or nothing is declared, an
expression prints as `sym(args)`. The sort of an elaborated application is left out.
-/

namespace SortedRewriting.Theory

/-- The pieces of a print pattern between its slots. -/
def pieces : List Char → List (List Char)
  | [] => [[]]
  | '\x7b' :: '\x7d' :: rest => [] :: pieces rest
  | c :: rest =>
    match pieces rest with
    | [] => [[c]]
    | p :: ps => (c :: p) :: ps

/-- The pieces with a text in each slot. -/
def interleave : List (List Char) → List String → String
  | p :: ps, s :: texts => String.ofList p ++ s ++ interleave ps texts
  | p :: _, [] => String.ofList p
  | [], _ => ""

/-- A symbol over the texts of its operands, by its print pattern if that has a slot for each. -/
def fill (pattern? : Option String) (sym : String) (texts : List String) : String :=
  match pattern?.map fun pattern => pieces pattern.toList with
  | some ps => if ps.length = texts.length + 1 then interleave ps texts else Expr.callText sym texts
  | none => Expr.callText sym texts

mutual

/-- The text of an expression in the theory. -/
def render (t : Theory) : Expr → String
  | .node .var s as => s ++ ":" ++ String.join (renderAll t as)
  | .node .sort s as => fill (t.sorts[s]?.map (·.pattern)) s (renderAll t as)
  | .node .app s as => fill (t.ops[s]?.map (·.pattern)) s (renderOperands t as)

/-- The texts of a list of expressions. -/
def renderAll (t : Theory) : List Expr → List String
  | [] => []
  | a :: as => render t a :: renderAll t as

/-- The texts of the operands among the children of an application. -/
def renderOperands (t : Theory) : List Expr → List String
  | [] => []
  | a :: as => if a.isSort then renderAll t as else render t a :: renderAll t as

end

/-- The text of an expression without the sorts that elaboration added. -/
def renderErased (t : Theory) (e : Expr) : String := t.render e.erase

/-- The two sides of a rule behind arrows; read forwards, the first side points to the second. -/
def renderRule (t : Theory) (r : Rule) : Direction → String
  | .forward => s!"Rule: {r.name}\n\t⟶\t{t.renderErased r.left}\n\t⟵\t{t.renderErased r.right}"
  | .reverse => s!"Rule: {r.name}\n\t⟵\t{t.renderErased r.left}\n\t⟶\t{t.renderErased r.right}"

/-- A declaration over the texts of its arguments, one on each line. -/
def declarationText (t : Theory) (what sym pattern : String) (args : List Expr) : String :=
  s!"\n{what}: {sym} {pattern}" ++ String.join (args.map fun a => "\n\t" ++ t.renderErased a)

/-- The whole theory: name, sorts, operators and rules. -/
def text (t : Theory) : String :=
  t.name ++ "\n"
    ++ String.join (t.sorts.toList.map fun (sym, d) => t.declarationText "Sort" sym d.pattern d.args)
    ++ String.join (t.ops.toList.map fun (sym, d) => t.declarationText "Op" sym d.pattern d.args)
    ++ String.join (t.rules.map fun r => "\n" ++ t.renderRule r .forward)

end SortedRewriting.Theory
