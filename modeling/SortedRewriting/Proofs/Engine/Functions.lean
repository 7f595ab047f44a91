import SortedRewriting.Engine.Basic
import SortedRewriting.Proofs.Engine.Construction
import SortedRewriting.Proofs.Symbolic.Functions
import SortedRewriting.Proofs.Tree.Bounds

/-!
# What the functions of an engine compute

Beside each definition stands the function on trees that it computes: `Engine.lookUp`,
`Engine.putAt`, `Engine.ruleHolds`, `Engine.ruleResult`, `Engine.applyRules`. A definition `Meets` a
specification when its body means the specified value, whatever the label of any node, and for
whatever calls the specification asks for.

* **`Engine.yields_definitions`**: the definitions of a theory, in their order, meet their
  specifications (`Engine.Layout`).
-/

namespace SortedRewriting

open Build (Yields firstTrue)
open Term (Means)

/-- A definition has the name and the signature, and gives arguments the values that a
specification relates to them. -/
structure FunDef.Meets (f : FunDef) (name : String) (signature : List Ty × Ty)
    (spec : Signature → Caller → List Value → Value → Prop) : Prop where
  name_eq : f.name = name
  signature_eq : f.signature = signature
  gives : ∀ F call args v, spec F call args v → f.Gives F call args v

namespace Engine

variable {S : Setting} {b : Bounds}

/-! ## Selecting and replacing -/

/-- The value for a path within the bounds, and `error` for any other. -/
def withinPaths (b : Bounds) (p : Path) (value : Path → Tree) : Tree :=
  if b.containsPath p then value p else .error

/-- The first of several equalities that holds. -/
theorem firstTrue_map_eq {α : Type} [DecidableEq α] (qs : List α) (a : α) (value : α → Tree)
    (d : Tree) : firstTrue (qs.map fun q => (decide (a = q), value q)) d =
      if a ∈ qs then value a else d := by
  induction qs with
  | nil => rfl
  | cons q qs ih =>
    unfold firstTrue at ih ⊢
    rw [List.map_cons, List.find?_cons]
    by_cases h : a = q
    · subst h
      simp
    · simp only [h, decide_false, List.mem_cons, false_or]
      exact ih

theorem yields_pathChoice {p root : Term} {P : Path} {branch : Path → Build Term}
    (value : Path → Tree) (hp : Means S p (.path P)) (hroot : Means S root (.tree (value [])))
    (hbranch : ∀ q, Yields (branch q) (Means S · (.tree (value q)))) :
    Yields (pathChoice b p root branch) (Means S · (.tree (withinPaths b P value))) := by
  unfold pathChoice
  refine (Yields.mapM (R := fun q t => Means S t.1 (.bool (decide (P = q))) ∧
    Means S t.2 (.tree (value q))) fun q _ => ?_).bind fun branches hbranches => ?_
  · refine (Build.yields_path (Means S) q).bind fun path hpath => ?_
    refine (Build.yields_eq hp hpath rfl).bind fun cond hcond => ?_
    exact (hbranch q).bind fun t ht => .pure ⟨by simpa using hcond, ht⟩
  · refine (Build.yields_path (Means S) []).bind fun path hpath => ?_
    refine (Build.yields_eq hp hpath rfl).bind fun atRoot hatRoot => ?_
    refine (Build.yields_tree (Means S) .error).bind fun fail hfail => ?_
    refine (Build.yields_ite hatRoot hroot hfail rfl).bind fun default hdefault => ?_
    have hd : (if decide (Value.path P = .path []) then Value.tree (value []) else .tree .error) =
        .tree (if P = [] then value [] else .error) := by
      by_cases h : P = [] <;> simp [h]
    rw [hd] at hdefault
    have hchain : withinPaths b P value =
        firstTrue (b.layers.flatten.map fun q => (decide (P = q), value q))
          (if P = [] then value [] else .error) := by
      rw [firstTrue_map_eq]
      simp only [withinPaths, Bounds.mem_layers_iff]
      by_cases hP : P = []
      · subst hP
        simp [Bounds.containsPath_iff]
      · simp [hP]
    rw [hchain]
    exact Build.yields_iteChain (List.forall₂_map_right_iff.mpr hbranches.flip) hdefault

theorem yields_rebuildAlong {width : Nat} {y : Term} {Y : Tree} (hy : Means S y (.tree Y))
    (p : Path) {x : Term} {X : Tree} (hx : Means S x (.tree X)) :
    Yields (rebuildAlong width y p x) (Means S · (.tree (Tree.rebuild width Y p X))) := by
  induction p generalizing x X with
  | nil => exact .pure hy
  | cons i p ih =>
    unfold rebuildAlong Tree.rebuild
    refine (Yields.mapM (R := fun slot t => Means S t (.tree
      (if slot = i then Tree.rebuild width Y p (X.child slot) else X.child slot)))
      fun slot _ => ?_).bind fun children hchildren => ?_
    · refine (Build.yields_select hx slot).bind fun child hchild => ?_
      split
      · exact ih hchild
      · exact .pure hchild
    · refine (Build.yields_tagOf hx).bind fun tag htag => ?_
      exact Build.yields_node htag (List.forall₂_map_right_iff.mpr hchildren.flip) width

/-- The subtree at a path within the bounds. -/
def lookUp (b : Bounds) (x : Tree) (p : Path) : Tree := withinPaths b p x.getAt

/-- The tree `x` with `y` at a path within the bounds. -/
def putAt (b : Bounds) (x y : Tree) (p : Path) : Tree :=
  withinPaths b p (Tree.rebuild b.width y · x)

/-- Selects the subtree at a path. -/
def GetAtSpec (b : Bounds) (_ : Signature) (_ : Caller) (args : List Value) (v : Value) : Prop :=
  ∃ x p, args = [.tree x, .path p] ∧ v = .tree (lookUp b x p)

/-- Puts a tree at a path of another. -/
def ReplaceAtSpec (b : Bounds) (_ : Signature) (_ : Caller) (args : List Value) (v : Value) : Prop :=
  ∃ x y p, args = [.tree x, .tree y, .path p] ∧ v = .tree (putAt b x y p)

theorem yields_getAtDef :
    Yields (getAtDef b) (·.Meets getAtName ([.tree, .path], .tree) (GetAtSpec b)) := by
  have hgives : ∀ F call x p, Yields (getAtDef b) fun f =>
      f.Gives F call [.tree x, .path p] (.tree (lookUp b x p)) := by
    intro F call X P
    unfold getAtDef
    refine (Build.yields_var _ _).bind fun x hx => ?_
    refine (Build.yields_var _ _).bind fun p hp => ?_
    have hbinds := @Setting.binds_ofCall F call [("x", .tree), ("p", .path)] (by decide)
      [.tree X, .path P]
    have hx := hx _ _ rfl (hbinds 0 (v := .tree X) rfl rfl)
    have hp := hp _ _ rfl (hbinds 1 (v := .path P) rfl rfl)
    refine (yields_pathChoice X.getAt hp hx fun q =>
      Build.yields_selectPath hx q).bind fun body hbody => .pure ⟨rfl, rfl, hbody⟩
  intro n
  refine ⟨rfl, rfl, ?_⟩
  rintro F call args v ⟨x, p, rfl, rfl⟩
  exact hgives F call x p n

theorem yields_replaceAtDef : Yields (replaceAtDef b)
    (·.Meets replaceAtName ([.tree, .tree, .path], .tree) (ReplaceAtSpec b)) := by
  have hgives : ∀ F call x y p, Yields (replaceAtDef b) fun f =>
      f.Gives F call [.tree x, .tree y, .path p] (.tree (putAt b x y p)) := by
    intro F call X Y P
    unfold replaceAtDef
    refine (Build.yields_var _ _).bind fun x hx => ?_
    refine (Build.yields_var _ _).bind fun y hy => ?_
    refine (Build.yields_var _ _).bind fun p hp => ?_
    have hbinds := @Setting.binds_ofCall F call [("x", .tree), ("y", .tree), ("p", .path)]
      (by decide) [.tree X, .tree Y, .path P]
    have hx := hx _ _ rfl (hbinds 0 (v := .tree X) rfl rfl)
    have hy := hy _ _ rfl (hbinds 1 (v := .tree Y) rfl rfl)
    have hp := hp _ _ rfl (hbinds 2 (v := .path P) rfl rfl)
    refine (yields_pathChoice (Tree.rebuild b.width Y · X) hp hy fun q =>
      yields_rebuildAlong hy q hx).bind fun body hbody => .pure ⟨rfl, rfl, hbody⟩
  intro n
  refine ⟨rfl, rfl, ?_⟩
  rintro F call args v ⟨x, y, p, rfl, rfl⟩
  exact hgives F call x y p n

/-! ## Rules -/

/-- Whether a tree matches the side of a rule. -/
def ruleHolds (book : CodeBook) (width : Nat) (tag : RuleTag) (rule : Rule) (x : Tree) : Bool :=
  patternHolds book width x (rule.matched tag.direction)

/-- The other side of a rule, with what it introduces in a step. -/
def ruleResult (book : CodeBook) (width : Nat) (tag : RuleTag) (rule : Rule) (x : Tree)
    (step : Int64) : Tree :=
  let matched := rule.matched tag.direction
  let produced := rule.produced tag.direction
  produced.constructed width (book.freshTag (produced.varsOutside matched) step) (some matched) x

/-- Tests whether a tree matches. -/
def PatternSpec (book : CodeBook) (width : Nat) (tag : RuleTag) (rule : Rule) (_ : Signature)
    (_ : Caller) (args : List Value) (v : Value) : Prop :=
  ∃ x, args = [.tree x] ∧ v = .bool (ruleHolds book width tag rule x)

/-- Makes the other side of a rule. -/
def ResultSpec (book : CodeBook) (width : Nat) (tag : RuleTag) (rule : Rule) (_ : Signature)
    (_ : Caller) (args : List Value) (v : Value) : Prop :=
  ∃ x s, args = [.tree x, .int s] ∧ v = .tree (ruleResult book width tag rule x s)

/-- The functions of a rule in one direction compute its match and its result. -/
structure RuleFunctions.Meets (g : RuleFunctions) (book : CodeBook) (width : Nat) (tag : RuleTag)
    (rule : Rule) : Prop where
  tag_eq : g.tag = tag
  pattern : g.pattern.Meets (patternName tag) ([.tree], .bool) (PatternSpec book width tag rule)
  result : g.result.Meets (resultName tag) ([.tree, .int], .tree) (ResultSpec book width tag rule)

theorem yields_ruleFunctions (book : CodeBook) (width : Nat) {x step : Term}
    (hx : x.IsVar "x" .tree) (hstep : step.IsVar "step" .int) (tag : RuleTag) (rule : Rule) :
    Yields (ruleFunctions book width x step tag rule) (·.Meets book width tag rule) := by
  have hpattern : ∀ F call X, Yields (ruleFunctions book width x step tag rule) fun g =>
      g.pattern.Gives F call [.tree X] (.bool (ruleHolds book width tag rule X)) := by
    intro F call X
    unfold ruleFunctions
    have hbinds := @Setting.binds_ofCall F call [("x", .tree)] (by decide) [.tree X]
    have hx := hx _ _ rfl (hbinds 0 (v := .tree X) rfl rfl)
    refine (yields_patternTest hx _).bind fun test htest => ?_
    exact fun n => ⟨rfl, rfl, htest⟩
  have hresult : ∀ F call X s, Yields (ruleFunctions book width x step tag rule) fun g =>
      g.result.Gives F call [.tree X, .int s] (.tree (ruleResult book width tag rule X s)) := by
    intro F call X s
    unfold ruleFunctions
    have hbinds := @Setting.binds_ofCall F call [("x", .tree), ("step", .int)] (by decide)
      [.tree X, .int s]
    obtain ⟨S, hS⟩ : ∃ S, S = Setting.ofCall F call [("x", .tree), ("step", .int)]
      [.tree X, .int s] := ⟨_, rfl⟩
    rw [← hS] at hbinds
    have hx := hx S _ rfl (hbinds 0 (v := .tree X) rfl rfl)
    have hstep := hstep S _ rfl (hbinds 1 (v := .int s) rfl rfl)
    have hsource : ∀ source, some (Source.mk (rule.matched tag.direction) x) = some source →
        Means S source.tree (.tree X) := by
      rintro source ⟨⟩
      exact hx
    refine (yields_patternTest hx _).bind fun test _ => ?_
    exact (Construction.yields_construct hstep hsource).bind fun result hresult =>
      .pure ⟨rfl, rfl, hS ▸ hresult⟩
  intro n
  refine ⟨rfl, ⟨rfl, rfl, ?_⟩, ⟨rfl, rfl, ?_⟩⟩
  · rintro F call args v ⟨X, rfl, rfl⟩
    exact hpattern F call X n
  · rintro F call args v ⟨X, s, rfl, rfl⟩
    exact hresult F call X s n

/-- The result of the first of the rules that has the tag and matches. -/
def applyRules (book : CodeBook) (width : Nat) (tagged : List (RuleTag × Rule)) (x : Tree)
    (tag : RuleTag) (step : Int64) : Tree :=
  if x.isNode then
    firstTrue (tagged.map fun r =>
      (decide (tag = r.1) && ruleHolds book width r.1 r.2 x, ruleResult book width r.1 r.2 x step))
      .error
  else .error

/-- Calls of the functions of a rule have the values that they compute. -/
structure RuleCalls (F : Signature) (call : Caller) (book : CodeBook) (width : Nat) (x : Tree)
    (step : Int64) (r : RuleTag × Rule) : Prop where
  pattern : Calls F call (patternName r.1) [.tree x] (.bool (ruleHolds book width r.1 r.2 x))
  result : Calls F call (resultName r.1) [.tree x, .int step]
    (.tree (ruleResult book width r.1 r.2 x step))

/-- Applies the first rule that has the tag and matches, over calls of the rules' functions. -/
def RewriteTopSpec (book : CodeBook) (width : Nat) (tagged : List (RuleTag × Rule)) (F : Signature)
    (call : Caller) (args : List Value) (v : Value) : Prop :=
  ∃ x tag s, args = [.tree x, .rule tag, .int s] ∧
    (∀ rule ∈ tagged, RuleCalls F call book width x s rule) ∧
    v = .tree (applyRules book width tagged x tag s)

theorem yields_ruleBranch {book : CodeBook} {width : Nat} {X : Tree} {tag : RuleTag} {s : Int64}
    {x r step : Term} (hx : Means S x (.tree X)) (hr : Means S r (.rule tag))
    (hstep : Means S step (.int s)) {g : RuleFunctions} {rule : RuleTag × Rule}
    (hg : g.Meets book width rule.1 rule.2)
    (hcalls : RuleCalls S.functions S.call book width X s rule) :
    Yields (ruleBranch x r step g) fun t =>
      Means S t.1 (.bool (decide (tag = rule.1) && ruleHolds book width rule.1 rule.2 X)) ∧
        Means S t.2 (.tree (ruleResult book width rule.1 rule.2 X s)) := by
  unfold ruleBranch FunDef.call
  have hpattern : g.pattern.result = .bool := congrArg Prod.snd hg.pattern.signature_eq
  have hresult : g.result.result = .tree := congrArg Prod.snd hg.result.signature_eq
  rw [hpattern, hresult, hg.pattern.name_eq, hg.result.name_eq, hg.tag_eq]
  refine (Build.yields_rule (Means S) _).bind fun this hthis => ?_
  refine (Build.yields_eq hr hthis rfl).bind fun chosen hchosen => ?_
  refine (Build.yields_apply hcalls.pattern (.cons hx .nil)).bind fun fits hfits => ?_
  have hchosen : Means S chosen (.bool (decide (tag = rule.1))) := by simpa using hchosen
  refine (Build.yields_all (.cons hchosen (.cons hfits .nil))).bind fun cond hcond => ?_
  refine (Build.yields_apply hcalls.result (.cons hx (.cons hstep .nil))).bind fun result hres => ?_
  refine .pure ⟨?_, hres⟩
  simpa using hcond

theorem yields_rewriteTopDef {book : CodeBook} {width : Nat} {tagged : List (RuleTag × Rule)}
    {rules : List RuleFunctions}
    (hrules : List.Forall₂ (fun r g => RuleFunctions.Meets g book width r.1 r.2) tagged rules)
    {x r step : Term} (hx : x.IsVar "x" .tree) (hr : r.IsVar "r" .rule)
    (hstep : step.IsVar "step" .int) :
    Yields (rewriteTopDef x r step rules)
      (·.Meets rewriteTopName ([.tree, .rule, .int], .tree) (RewriteTopSpec book width tagged)) := by
  have hgives : ∀ F call X tag s, (∀ rule ∈ tagged, RuleCalls F call book width X s rule) →
      Yields (rewriteTopDef x r step rules) fun f =>
        f.Gives F call [.tree X, .rule tag, .int s]
          (.tree (applyRules book width tagged X tag s)) := by
    intro F call X tag s hcalls
    unfold rewriteTopDef applyRules
    have hbinds := @Setting.binds_ofCall F call [("x", .tree), ("r", .rule), ("step", .int)]
      (by decide) [.tree X, .rule tag, .int s]
    obtain ⟨S, hS⟩ : ∃ S, S = Setting.ofCall F call [("x", .tree), ("r", .rule), ("step", .int)]
      [.tree X, .rule tag, .int s] := ⟨_, rfl⟩
    rw [← hS] at hbinds
    have hx := hx S _ rfl (hbinds 0 (v := .tree X) rfl rfl)
    have hr := hr S _ rfl (hbinds 1 (v := .rule tag) rfl rfl)
    have hstep := hstep S _ rfl (hbinds 2 (v := .int s) rfl rfl)
    have hcalls : ∀ rule ∈ tagged, RuleCalls S.functions S.call book width X s rule := hS ▸ hcalls
    refine (Yields.mapM_of_forall₂ hrules fun rule hrule g hg =>
      yields_ruleBranch hx hr hstep hg (hcalls rule hrule)).bind fun branches hbranches => ?_
    refine (Build.yields_tree (Means S) .error).bind fun fail hfail => ?_
    have hvalues : List.Forall₂
        (fun t v => Means S t.1 (.bool v.1) ∧ Means S t.2 (.tree v.2)) branches
        (tagged.map fun r =>
          (decide (tag = r.1) && ruleHolds book width r.1 r.2 X,
            ruleResult book width r.1 r.2 X s)) :=
      List.forall₂_map_right_iff.mpr hbranches.flip
    refine (Build.yields_iteChain hvalues hfail).bind fun chain hchain => ?_
    refine (Build.yields_test .node hx).bind fun isNode hisNode => ?_
    refine (Build.yields_tree (Means S) .error).bind fun fail' hfail' => ?_
    refine (Build.yields_ite hisNode hchain hfail' rfl).bind fun body hbody => ?_
    rw [← apply_ite Value.tree] at hbody
    exact .pure ⟨rfl, rfl, hS ▸ hbody⟩
  intro n
  refine ⟨rfl, rfl, ?_⟩
  rintro F call args v ⟨X, tag, s, rfl, hcalls, rfl⟩
  exact hgives F call X tag s hcalls n

/-! ## Rewriting at a path -/

/-- Selects, applies a rule and replaces, over calls of the three functions that do it. -/
def RewriteSpec (F : Signature) (call : Caller) (args : List Value) (v : Value) : Prop :=
  ∃ x tag p s y z w, args = [.tree x, .rule tag, .path p, .int s] ∧
    Calls F call getAtName [.tree x, .path p] (.tree y) ∧
    Calls F call rewriteTopName [.tree y, .rule tag, .int s] (.tree z) ∧
    Calls F call replaceAtName [.tree x, .tree z, .path p] (.tree w) ∧
    v = .tree (if x.isNode then w else .error)

theorem yields_rewriteDef : Yields rewriteDef
    (·.Meets rewriteName ([.tree, .rule, .path, .int], .tree) RewriteSpec) := by
  have hgives : ∀ F call x tag p s y z w,
      Calls F call getAtName [.tree x, .path p] (.tree y) →
      Calls F call rewriteTopName [.tree y, .rule tag, .int s] (.tree z) →
      Calls F call replaceAtName [.tree x, .tree z, .path p] (.tree w) →
      Yields rewriteDef fun f => f.Gives F call [.tree x, .rule tag, .path p, .int s]
        (.tree (if x.isNode then w else .error)) := by
    intro F call X tag P s Y Z W hget htop hput
    unfold rewriteDef
    have hbinds := @Setting.binds_ofCall F call
      [("x", .tree), ("r", .rule), ("p", .path), ("step", .int)] (by decide)
      [.tree X, .rule tag, .path P, .int s]
    obtain ⟨S, hS⟩ : ∃ S, S = Setting.ofCall F call
      [("x", .tree), ("r", .rule), ("p", .path), ("step", .int)]
      [.tree X, .rule tag, .path P, .int s] := ⟨_, rfl⟩
    rw [← hS] at hbinds
    have hF : S.functions = F := hS ▸ rfl
    have hcall : S.call = call := hS ▸ rfl
    rw [← hF, ← hcall] at hget htop hput
    refine (Build.yields_var _ _).bind fun x hx => ?_
    refine (Build.yields_var _ _).bind fun r hr => ?_
    refine (Build.yields_var _ _).bind fun p hp => ?_
    refine (Build.yields_var _ _).bind fun step hstep => ?_
    have hx := hx S _ rfl (hbinds 0 (v := .tree X) rfl rfl)
    have hr := hr S _ rfl (hbinds 1 (v := .rule tag) rfl rfl)
    have hp := hp S _ rfl (hbinds 2 (v := .path P) rfl rfl)
    have hstep := hstep S _ rfl (hbinds 3 (v := .int s) rfl rfl)
    refine (Build.yields_apply hget (.cons hx (.cons hp .nil))).bind fun sub hsub => ?_
    refine (Build.yields_apply htop (.cons hsub (.cons hr (.cons hstep .nil)))).bind
      fun rewritten hrewritten => ?_
    refine (Build.yields_apply hput (.cons hx (.cons hrewritten (.cons hp .nil)))).bind
      fun replaced hreplaced => ?_
    refine (Build.yields_test .node hx).bind fun isNode hisNode => ?_
    refine (Build.yields_tree (Means S) .error).bind fun fail hfail => ?_
    refine (Build.yields_ite hisNode hreplaced hfail rfl).bind fun body hbody => ?_
    rw [← apply_ite Value.tree] at hbody
    exact .pure ⟨rfl, rfl, hS ▸ hbody⟩
  intro n
  refine ⟨rfl, rfl, ?_⟩
  rintro F call args v ⟨x, tag, p, s, y, z, w, rfl, hget, htop, hput, rfl⟩
  exact hgives F call x tag p s y z w hget htop hput n

/-! ## All definitions -/

/-- The definitions of a theory, in their order, meet their specifications. -/
structure Layout (theoryRules : List Rule) (book : CodeBook) (b : Bounds) (fs : List FunDef) where
  getAt : FunDef
  replaceAt : FunDef
  rules : List RuleFunctions
  rewriteTop : FunDef
  rewrite : FunDef
  order : fs = getAt :: replaceAt :: rules.flatMap (fun g => [g.pattern, g.result])
    ++ [rewriteTop, rewrite]
  getAt_meets : getAt.Meets getAtName ([.tree, .path], .tree) (GetAtSpec b)
  replaceAt_meets : replaceAt.Meets replaceAtName ([.tree, .tree, .path], .tree) (ReplaceAtSpec b)
  rules_meet : List.Forall₂ (fun r g => RuleFunctions.Meets g book b.width r.1 r.2)
    (taggedRules theoryRules b) rules
  rewriteTop_meets : rewriteTop.Meets rewriteTopName ([.tree, .rule, .int], .tree)
    (RewriteTopSpec book b.width (taggedRules theoryRules b))
  rewrite_meets : rewrite.Meets rewriteName ([.tree, .rule, .path, .int], .tree) RewriteSpec

/-- **The definitions of a theory meet their specifications.** -/
theorem yields_definitions (theoryRules : List Rule) (book : CodeBook) (b : Bounds) :
    Yields (definitions theoryRules book b) fun fs => Nonempty (Layout theoryRules book b fs) := by
  unfold definitions
  refine yields_getAtDef.bind fun getAt hgetAt => ?_
  refine yields_replaceAtDef.bind fun replaceAt hreplaceAt => ?_
  refine (Build.yields_var _ _).bind fun x hx => ?_
  refine (Build.yields_var _ _).bind fun step hstep => ?_
  refine (Build.yields_var _ _).bind fun r hr => ?_
  refine (Yields.mapM (R := fun r g => RuleFunctions.Meets g book b.width r.1 r.2)
    fun r _ => yields_ruleFunctions book b.width hx hstep r.1 r.2).bind fun rules hrules => ?_
  refine (yields_rewriteTopDef hrules hx hr hstep).bind fun rewriteTop hrewriteTop => ?_
  refine yields_rewriteDef.bind fun rewrite hrewrite => ?_
  exact .pure ⟨⟨getAt, replaceAt, rules, rewriteTop, rewrite, rfl, hgetAt, hreplaceAt, hrules,
    hrewriteTop, hrewrite⟩⟩

end Engine

end SortedRewriting
