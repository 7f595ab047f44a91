import SortedRewriting.Proofs.Engine.Calls
import SortedRewriting.Proofs.Theory.Elaboration

/-!
# Engines of the library

`Engine.Compiled` are the engines that the library makes: compiled from a theory of its own, with
the symbols of some expressions recorded afterwards.

* `Engine.Compiled.intact`: what holds of all of them. Their functions are the definitions of their
  rules, over the code book of their theory.
* **`Engine.Compiled.rewrite_eq`**: `rewrite` never fails, and applies a rule at a path.
* `Engine.Intact.applyRules_eq`: the rule that it applies is the one of the tag.
* `Engine.Intact.applyAt_eq`, `Engine.Intact.applyAt_eq_iff`: on trees of full width it selects,
  rewrites and replaces.
-/

namespace SortedRewriting

/-! ## Recorded symbols -/

namespace CodeBook

/-- The book of a theory, possibly with more names for decoding. -/
def IsOf (b : CodeBook) (t : Theory) : Prop := ∃ names, b = { ofTheory t with names := names }

theorem isOf_ofTheory (t : Theory) : (ofTheory t).IsOf t := ⟨(ofTheory t).names, rfl⟩

variable {b : CodeBook} {t : Theory} {sym : String}

theorem IsOf.codes_eq (h : b.IsOf t) : b.codes = (ofTheory t).codes := by
  obtain ⟨names, rfl⟩ := h
  rfl

theorem IsOf.stride_eq (h : b.IsOf t) : b.stride = strideOf t.rules := by
  obtain ⟨names, rfl⟩ := h
  rfl

theorem IsOf.kinds_eq (h : b.IsOf t) : b.kinds = (ofTheory t).kinds := by
  obtain ⟨names, rfl⟩ := h
  rfl

theorem IsOf.registerSymbol (h : b.IsOf t) (sym : String) : (b.registerSymbol sym).IsOf t := by
  obtain ⟨names, rfl⟩ := h
  unfold CodeBook.registerSymbol
  split
  · exact ⟨names, rfl⟩
  · exact ⟨_, rfl⟩

/-- Recording an expression adds names only. -/
theorem IsOf.register (h : b.IsOf t) (e : Expr) : (b.register e).IsOf t := by
  unfold CodeBook.register
  generalize e.symbols.toList = syms
  induction syms generalizing b with
  | nil => exact h
  | cons sym syms ih => exact ih (h.registerSymbol sym)

/-- Symbols are put on record under their codes, unless there are other names already. -/
structure Records (b b' : CodeBook) (syms : List String) : Prop where
  codes : b'.codes = b.codes
  kept : ∀ (c : Int64) (sym : String), b.names[c]? = some sym → b'.names[c]? = some sym
  added : ∀ (c : Int64) (sym : String), b'.names[c]? = some sym →
    b.names[c]? = some sym ∨ sym ∈ syms ∧ b.code sym = c
  named : ∀ sym ∈ syms, sym ∉ b.codes → ∃ sym', b'.names[b.code sym]? = some sym'

theorem Records.code_eq {b' : CodeBook} {syms : List String} (h : b.Records b' syms) (sym : String) :
    b'.code sym = b.code sym := by
  rw [code, code, theoryCode?, theoryCode?, h.codes]

/-- The code of a symbol that the theory does not mention. -/
theorem code_of_notMem (h : sym ∉ b.codes) : b.code sym = fallbackCode sym := by
  rw [code, theoryCode?, Std.ExtTreeMap.getElem?_eq_none h]
  rfl

theorem records_registerSymbol (b : CodeBook) (sym : String) :
    b.Records (b.registerSymbol sym) [sym] := by
  unfold registerSymbol
  by_cases hsym : sym ∈ b.codes
  · rw [if_pos (Std.ExtTreeMap.contains_iff_mem.mpr hsym)]
    refine ⟨rfl, fun _ _ h => h, fun _ _ h => .inl h, fun sym' hsym' hnot => ?_⟩
    cases List.mem_singleton.mp hsym'
    exact absurd hsym hnot
  · rw [if_neg (mt Std.ExtTreeMap.contains_iff_mem.mp hsym), ← code_of_notMem hsym]
    refine ⟨rfl, fun c sym' h => ?_, fun c sym' h => ?_, fun sym' hsym' _ => ?_⟩
    · rw [Std.ExtTreeMap.getElem?_insertIfNew, if_neg]
      · exact h
      · rintro ⟨heq, hnew⟩
        cases Std.LawfulEqCmp.compare_eq_iff_eq.mp heq
        rw [Std.ExtTreeMap.getElem?_eq_none hnew] at h
        exact absurd h nofun
    · rw [Std.ExtTreeMap.getElem?_insertIfNew] at h
      split at h
      · rename_i heq
        cases h
        exact .inr ⟨List.mem_singleton_self sym, Std.LawfulEqCmp.compare_eq_iff_eq.mp heq.1⟩
      · exact .inl h
    · cases List.mem_singleton.mp hsym'
      rw [Std.ExtTreeMap.getElem?_insertIfNew]
      by_cases hold : b.code sym ∈ b.names
      · obtain ⟨sym', h⟩ :=
          Option.isSome_iff_exists.mp (Std.ExtTreeMap.isSome_getElem?_iff_mem.mpr hold)
        exact ⟨sym', by rw [if_neg fun h => h.2 hold, h]⟩
      · exact ⟨sym, if_pos ⟨Std.ReflCmp.compare_self, hold⟩⟩

theorem records_foldl (syms : List String) (b : CodeBook) :
    b.Records (syms.foldl registerSymbol b) syms := by
  induction syms generalizing b with
  | nil => exact ⟨rfl, fun _ _ h => h, fun _ _ h => .inl h, fun _ h => absurd h List.not_mem_nil⟩
  | cons sym syms ih =>
    have hfirst := records_registerSymbol b sym
    have hrest := ih (b.registerSymbol sym)
    refine ⟨hrest.codes.trans hfirst.codes, fun c sym' h => ?_, fun c sym' h => ?_,
      fun sym' hmem hnot => ?_⟩
    · exact hrest.kept c sym' (hfirst.kept c sym' h)
    · rcases hrest.added c sym' h with h | ⟨hmem, hcode⟩
      · refine (hfirst.added c sym' h).imp_right fun ⟨hmem, hcode⟩ => ⟨?_, hcode⟩
        cases List.mem_singleton.mp hmem
        exact List.mem_cons_self
      · exact .inr ⟨List.mem_cons_of_mem sym hmem, (hfirst.code_eq sym').symm.trans hcode⟩
    · rcases List.mem_cons.mp hmem with rfl | hmem
      · obtain ⟨name, hname⟩ := hfirst.named sym' List.mem_cons_self hnot
        exact ⟨name, hrest.kept _ name hname⟩
      · rw [← hfirst.code_eq sym']
        exact hrest.named sym' hmem (hfirst.codes ▸ hnot)

theorem records_register (b : CodeBook) (e : Expr) : b.Records (b.register e) e.symbols.toList :=
  records_foldl _ b

end CodeBook

namespace Engine

/-! ## What is compiled -/

/-- An engine as the library makes it. -/
inductive Compiled : Engine → Prop
  | compile {theory : Theory} {depth : Nat} {e : Engine} (made : theory.Made)
      (compile : Engine.compile theory depth = .ok e) : Compiled e
  | register {e : Engine} (compiled : Compiled e) (expr : Expr) : Compiled (e.register expr)

/-- The parts of an engine fit together. -/
structure Intact (e : Engine) : Prop where
  sound : e.theory.Sound
  arity_eq : e.bounds.arity = e.theory.maxArity
  ruleCount_eq : e.bounds.ruleCount = e.theory.rules.length
  book : e.book.IsOf e.theory
  functions : Nonempty (Layout e.theory.rules (.ofTheory e.theory) e.bounds e.functions.defs)

variable {e : Engine}

/-- A new table takes all definitions of a theory. -/
theorem nonempty_layout_insertAll {rules : List Rule} {book : CodeBook} {b : Bounds}
    {fs : List FunDef} (h : Nonempty (Layout rules book b fs)) :
    Nonempty (Layout rules book b (FunctionTable.empty.insertAll fs).defs) := by
  have hdefs : (FunctionTable.empty.insertAll fs).defs = fs :=
    FunctionTable.insertAll_defs h.some.distinct
  rwa [hdefs]

/-- **An engine of the library is intact.** -/
theorem Compiled.intact (h : e.Compiled) : e.Intact := by
  induction h with
  | @compile theory depth e made compile =>
    obtain ⟨theory', helaborate, h⟩ := bind_eq_ok_iff.mp compile
    cases h
    refine ⟨(made.elaborated helaborate).sound, rfl, rfl, CodeBook.isOf_ofTheory theory', ?_⟩
    exact nonempty_layout_insertAll (yields_definitions theory'.rules _ _).result
  | register _ expr ih =>
    exact ⟨ih.sound, ih.arity_eq, ih.ruleCount_eq, ih.book.register expr, ih.functions⟩

theorem le_foldl_max (ns : List Nat) (n : Nat) : n ≤ ns.foldl max n := by
  induction ns generalizing n with
  | nil => exact Nat.le_refl n
  | cons m ns ih => exact Nat.le_trans (Nat.le_max_left n m) (ih (max n m))

/-- There is a slot for a sort and one for an argument at least. -/
theorem Intact.two_le_width (h : e.Intact) : 2 ≤ e.bounds.width := by
  have harity : 1 ≤ e.bounds.arity := h.arity_eq ▸ le_foldl_max _ 1
  unfold Bounds.width
  omega

/-! ## Rewriting -/

/-- A call of the function `rewrite` applies the rule at the path. -/
theorem Compiled.calls_rewrite (h : e.Compiled) (x : Tree) (tag : RuleTag) (p : Path) (s : Int64) :
    Calls (.of e.functions.defs) e.functions.call rewriteName
      [.tree x, .rule tag, .path p, .int s]
      (.tree (applyAt e.theory.rules e.book e.bounds x tag p s)) := by
  have hi := h.intact
  obtain ⟨L⟩ := hi.functions
  have hlimit : e.functions.callLimit = e.functions.size + 999997 + 3 := rfl
  have hcalls := L.calls_rewrite (e.functions.size + 999997) x tag p s
  rw [← hlimit] at hcalls
  obtain ⟨names, hbook⟩ := hi.book
  rw [hbook]
  exact hcalls

/-- **`rewrite` never fails, and applies the rule at the path.** -/
theorem Compiled.rewrite_eq (h : e.Compiled) (x : Tree) (tag : RuleTag) (p : Path) (s : Int64) :
    e.rewrite x tag p s = .ok (applyAt e.theory.rules e.book e.bounds x tag p s) := by
  unfold rewrite callTree
  rw [(h.calls_rewrite x tag p s).value]
  rfl

/-- An error is rewritten to an error. -/
theorem Compiled.rewrite_error (he : e.Compiled) (tag : RuleTag) (p : Path) (s : Int64) :
    e.rewrite .error tag p s = .ok .error := by
  rw [he.rewrite_eq]
  rfl

variable {tag : RuleTag} {rule : Rule}

theorem Intact.mem_taggedRules_iff (h : e.Intact) :
    (tag, rule) ∈ taggedRules e.theory.rules e.bounds ↔ e.rule? tag = some rule := by
  rw [Engine.mem_taggedRules_iff, h.ruleCount_eq]
  exact ⟨And.right, fun hr => ⟨(List.getElem?_eq_some_iff.mp hr).1, hr⟩⟩

/-- The first condition that holds, where the others do not. -/
theorem firstTrue_eq_of_unique {α : Type} (holds : α → Bool) (value : α → Tree) {as : List α}
    {a : α} (ha : a ∈ as) (hunique : ∀ a' ∈ as, holds a' = true → a' = a) (d : Tree) :
    Build.firstTrue (as.map fun a => (holds a, value a)) d = if holds a then value a else d := by
  induction as with
  | nil => exact absurd ha nofun
  | cons b bs ih =>
    obtain ⟨hb, hbs⟩ := List.forall_mem_cons.mp hunique
    unfold Build.firstTrue at ih ⊢
    rw [List.map_cons, List.find?_cons]
    cases hholds : holds b with
    | true =>
      cases hb hholds
      rw [hholds]
      rfl
    | false =>
      simp only
      rcases List.mem_cons.mp ha with rfl | ha
      · have hnone : (bs.map fun a => (holds a, value a)).find? (·.1) = none := by
          rw [List.find?_eq_none]
          rintro ⟨c, v⟩ hc htrue
          obtain ⟨b', hb', he⟩ := List.mem_map.mp hc
          cases he
          rw [hbs b' hb' htrue, hholds] at htrue
          exact absurd htrue nofun
        rw [hnone, hholds]
        rfl
      · exact ih ha hbs

/-- The rule of a tag is applied where it matches. -/
theorem Intact.applyRules_eq (h : e.Intact) (hr : e.rule? tag = some rule) (x : Tree) (s : Int64) :
    applyRules e.book e.bounds.width (taggedRules e.theory.rules e.bounds) x tag s =
      if x.isNode ∧ ruleHolds e.book e.bounds.width tag rule x then
        ruleResult e.book e.bounds.width tag rule x s
      else .error := by
  unfold applyRules
  have hfirst := firstTrue_eq_of_unique
    (fun r => decide (tag = r.1) && ruleHolds e.book e.bounds.width r.1 r.2 x)
    (fun r => ruleResult e.book e.bounds.width r.1 r.2 x s)
    (h.mem_taggedRules_iff.mpr hr) (fun r hr' hholds => ?_) .error
  · rw [hfirst]
    by_cases hx : x.isNode = true <;> simp [hx]
  · obtain ⟨tag', rule'⟩ := r
    cases of_decide_eq_true (Bool.and_eq_true_iff.mp hholds).1
    have hr' := h.mem_taggedRules_iff.mp hr'
    rw [hr] at hr'
    cases hr'
    rfl

/-- No rule is applied for a tag without a rule. -/
theorem Intact.applyRules_eq_error (h : e.Intact) (hr : e.rule? tag = none) (x : Tree) (s : Int64) :
    applyRules e.book e.bounds.width (taggedRules e.theory.rules e.bounds) x tag s = .error := by
  unfold applyRules Build.firstTrue
  have hnone : ((taggedRules e.theory.rules e.bounds).map fun r =>
      (decide (tag = r.1) && ruleHolds e.book e.bounds.width r.1 r.2 x,
        ruleResult e.book e.bounds.width r.1 r.2 x s)).find? (·.1) = none := by
    rw [List.find?_eq_none]
    rintro ⟨c, v⟩ hc htrue
    obtain ⟨⟨tag', rule'⟩, hmem, he⟩ := List.mem_map.mp hc
    cases he
    cases of_decide_eq_true (Bool.and_eq_true_iff.mp htrue).1
    rw [h.mem_taggedRules_iff.mp hmem] at hr
    exact absurd hr nofun
  rw [hnone]
  split <;> rfl

/-- In a tree of full width, a tree is put at the paths within the bounds. -/
theorem Intact.putAt_eq (h : e.Intact) {x : Tree} (hx : x.Uniform e.bounds.width) (y : Tree)
    (p : Path) : putAt e.bounds x y p =
      if e.bounds.containsPath p then x.replaceAt p y else .error := by
  unfold putAt withinPaths
  by_cases hc : e.bounds.containsPath p = true
  · have hslots : ∀ i ∈ p, i < e.bounds.width :=
      fun i hmem => Nat.lt_succ_of_le ((Bounds.containsPath_iff.mp hc).2 i hmem)
    rw [if_pos hc, if_pos hc]
    exact Tree.rebuild_eq_replaceAt h.two_le_width _ hslots hx
  · rw [if_neg hc, if_neg hc]

/-- On a node of full width, the rule is applied at a path within the bounds and put back. -/
theorem Intact.applyAt_eq (h : e.Intact) {x : Tree} (hx : x.Uniform e.bounds.width)
    (hnode : x.isNode = true) (p : Path) (s : Int64) :
    applyAt e.theory.rules e.book e.bounds x tag p s =
      if e.bounds.containsPath p then
        x.replaceAt p (applyRules e.book e.bounds.width (taggedRules e.theory.rules e.bounds)
          (x.getAt p) tag s)
      else .error := by
  unfold applyAt
  rw [if_pos hnode, h.putAt_eq hx]
  by_cases hc : e.bounds.containsPath p = true
  · unfold lookUp withinPaths
    rw [if_pos hc, if_pos hc, if_pos hc]
  · rw [if_neg hc, if_neg hc]

/-- A tree that matches is a node. -/
theorem Intact.isNode_of_holds (h : e.Intact) (hr : e.rule? tag = some rule) {x : Tree}
    (hholds : ruleHolds e.book e.bounds.width tag rule x = true) : x.isNode = true := by
  have hwf := (h.sound.sides (List.mem_of_getElem? hr) tag.direction).1
  have hw : 1 ≤ e.bounds.width := Nat.le_of_succ_le h.two_le_width
  have hfits := (patternHolds_iff.mp hholds).1
  exact Tree.isNode_iff.mpr (exists_node_of_fits hwf hw hfits (Expr.subterm?_nil _))

/-- **A step to a tree that is no error**: the path is within the bounds, the rule matches the node
there, and its result takes the place of that node. -/
theorem Intact.applyAt_eq_iff (h : e.Intact) {x y : Tree} (hx : x.Uniform e.bounds.width)
    (hy : y ≠ .error) {p : Path} {s : Int64} :
    applyAt e.theory.rules e.book e.bounds x tag p s = y ↔
      ∃ rule, e.rule? tag = some rule ∧ e.bounds.containsPath p = true ∧
        ruleHolds e.book e.bounds.width tag rule (x.getAt p) = true ∧
        x.replaceAt p (ruleResult e.book e.bounds.width tag rule (x.getAt p) s) = y := by
  constructor
  · intro hstep
    have hnode : x.isNode = true := by
      by_contra hnode
      exact hy (hstep.symm.trans (if_neg hnode))
    rw [h.applyAt_eq hx hnode] at hstep
    by_cases hp : e.bounds.containsPath p = true
    · rw [if_pos hp] at hstep
      cases hr : e.rule? tag with
      | none =>
        rw [h.applyRules_eq_error hr, Tree.replaceAt_error] at hstep
        exact absurd hstep.symm hy
      | some rule =>
        rw [h.applyRules_eq hr] at hstep
        split at hstep
        · rename_i hmatch
          exact ⟨rule, rfl, hp, hmatch.2, hstep⟩
        · rw [Tree.replaceAt_error] at hstep
          exact absurd hstep.symm hy
    · rw [if_neg hp] at hstep
      exact absurd hstep.symm hy
  · rintro ⟨rule, hr, hp, hholds, hresult⟩
    have hnode := h.isNode_of_holds hr hholds
    rw [h.applyAt_eq hx (Tree.isNode_of_getAt hnode), if_pos hp, h.applyRules_eq hr,
      if_pos ⟨hnode, hholds⟩]
    exact hresult

/-- An engine for paths up to a depth that passes a check, of a theory of well-formed expressions. -/
theorem exists_compiled (name : String) (sorts : List (String × SortDecl))
    (ops : List (String × OpDecl)) (rules : List Rule) (depth : Nat) {P : Engine → Prop}
    [DecidablePred P]
    (h : (Theory.declare name sorts ops rules).toOption.any (fun t =>
      t.patterns.all (fun e => decide e.WellFormed) &&
        (Engine.compile t depth).toOption.any (P ·)) = true) :
    ∃ e : Engine, e.Compiled ∧ P e := by
  obtain ⟨t, made, h⟩ := Theory.exists_made name sorts ops rules h
  obtain ⟨e, he, hP⟩ := exists_ok_of_any h
  exact ⟨e, .compile made he, of_decide_eq_true hP⟩

end Engine

/-! ## A theory of pairs -/

namespace Pairs

/-- The sort of things. -/
def thing : Expr := .node .sort "T" []

/-- A variable for things. -/
def thingVar (name : String) : Expr := .node .var name [thing]

/-- The pair of two things, which is a thing and has a sort. -/
def pair (x y : Expr) : Expr := .node .app "k" [thing, x, y]

/-- The tree of a variable for things, by its code. -/
def varTree (code : Int64) : Tree := .build code [.build 1 [] 3] 3

theorem occurs_varTree {code c : Int64} (h : (varTree code).Occurs c) : c = code ∨ c = 1 := by
  rcases Tree.occurs_build h with hc | ⟨y, hy, hc⟩
  · exact .inl hc
  · cases List.mem_singleton.mp hy
    rcases Tree.occurs_build hc with hc | ⟨y, hy, -⟩
    · exact .inr hc
    · exact absurd hy nofun

/-- The tree of a pair, of the trees of its components. -/
def pairTree (x y : Tree) : Tree := .build 2 [.build 1 [] 3, x, y] 3

theorem regular_varTree (c : Int64) : (varTree c).Regular 3 := by
  refine Tree.regular_build (by decide) fun y hy => ?_
  cases List.mem_singleton.mp hy
  exact Tree.regular_build (by decide) nofun

theorem regular_pairTree {x y : Tree} (hx : x.Regular 3) (hy : y.Regular 3) :
    (pairTree x y).Regular 3 := by
  refine Tree.regular_build (Nat.le_refl 3) ?_
  simp only [List.forall_mem_cons]
  exact ⟨Tree.regular_build (by decide) nofun, hx, hy, nofun⟩

/-- A pair may stand for its first component; in reverse the second is introduced. -/
def first : Rule := ⟨"first", "", pair (thingVar "x") (thingVar "y"), thingVar "x"⟩

/-- Things and their pairs. -/
def theory : Except DeclarationError Theory :=
  Theory.declare "pairs" [("T", ⟨"T", [], ""⟩)]
    [("k", ⟨"k", thing, [thingVar "x", thingVar "y"], ""⟩)] [first]

/-- A check of the theory, which has to be declared and of well-formed expressions. -/
def satisfies (P : Theory → Bool) : Bool :=
  theory.toOption.any fun t => t.patterns.all (fun e => decide e.WellFormed) && P t

theorem exists_theory {P : Theory → Bool} (h : satisfies P = true) :
    ∃ t : Theory, t.Made ∧ P t = true :=
  Theory.exists_made _ _ _ _ h

/-- A check of its engine, for rewriting at the root and one level below it. -/
theorem exists_engine {P : Engine → Prop} [DecidablePred P]
    (h : satisfies (fun t => (Engine.compile t 1).toOption.any (P ·)) = true) :
    ∃ e : Engine, e.Compiled ∧ P e :=
  Engine.exists_compiled _ _ _ _ 1 h

end Pairs

end SortedRewriting
