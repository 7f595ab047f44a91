import SortedRewriting.Expr.Basic

/-!
# The text of an expression

A variable prints as `name:sort`. Applications and sorts print as `sym(args)`, or the bare symbol
without arguments; an elaborated application is followed by its sort, as `(sym(args))::sort`, or
`sym::sort` without operands.
-/

namespace SortedRewriting.Expr

/-- A symbol over the texts of its arguments. -/
def callText (sym : String) (args : List String) : String :=
  if args.isEmpty then sym else sym ++ "(" ++ String.intercalate "," args ++ ")"

mutual

/-- The text of an expression. -/
def text : Expr → String
  | .node .var s as => s ++ ":" ++ String.intercalate "," (textAll as)
  | .node .sort s as => callText s (textAll as)
  | .node .app s as =>
    match splitSort as, textAll as with
    | (some _, []), sort :: _ => s!"{s}::{sort}"
    | (some _, _ :: _), sort :: operands => s!"({callText s operands})::{sort}"
    | _, texts => callText s texts

/-- The texts of a list of expressions. -/
def textAll : List Expr → List String
  | [] => []
  | a :: as => text a :: textAll as

end

end SortedRewriting.Expr
