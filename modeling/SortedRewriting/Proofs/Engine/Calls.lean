import SortedRewriting.Proofs.Engine.Functions
import Std.Data.String.ToNat

/-!
# Calls of an engine's functions

* `Engine.Layout.distinct`: no two definitions of a theory have one name, so that a table keeps all
  of them.
* `Engine.Layout.layered`: each is well typed over those before it.
* **`Engine.Layout.calls_rewrite`**: a call of `rewrite` selects, applies the rule and replaces
  (`Engine.applyAt`); it never fails. The same is said of the functions that it calls.
-/

namespace SortedRewriting

open Term (Means HasType)

/-! ## Names -/

namespace RuleTag

/-- Rules are counted by the addition of words. -/
theorem number_eq_toNat {tag : RuleTag} (h : tag.rule < UInt64.size) :
    tag.number = (UInt64.ofNat tag.rule + 1).toNat := by
  rw [UInt64.toNat_add, UInt64.toNat_ofNat_of_lt' h, UInt64.toNat_one, number]
  split
  · rename_i hlast
    rw [hlast, UInt64.size, Nat.mod_self]
  · rename_i hlast
    exact (Nat.mod_eq_of_lt (Nat.lt_of_le_of_ne h hlast)).symm

/-- The number of a rule determines its index, also where it wraps around. -/
theorem number_injective {tag tag' : RuleTag} (h : tag.number = tag'.number) :
    tag.rule = tag'.rule := by
  unfold number at h
  split at h <;> split at h <;> omega

/-- The name of a rule tag determines it. -/
theorem text_injective {tag tag' : RuleTag} (h : tag.text = tag'.text) : tag = tag' := by
  have h := congrArg String.toList h
  simp only [text, String.toList_append] at h
  have hlen : ∀ d : Direction, (toString d.letter).toList.length = 1 := fun d => by cases d <;> rfl
  obtain ⟨hnum, hletter⟩ := List.append_inj' h (by rw [hlen, hlen])
  have hrepr : tag.number.repr = tag'.number.repr :=
    String.toList_injective (List.append_cancel_left hnum)
  have hrule := number_injective (Nat.repr_injective hrepr)
  have hdir : tag.direction = tag'.direction := by
    revert hletter
    cases tag.direction <;> cases tag'.direction <;> decide
  obtain ⟨r, dir⟩ := tag
  cases hrule
  cases hdir
  rfl

end RuleTag

namespace Engine

/-- The names of the definitions of a theory. -/
def definedNames (rules : List Rule) (b : Bounds) : List String :=
  getAtName :: replaceAtName ::
    (taggedRules rules b).flatMap (fun r => [patternName r.1, resultName r.1]) ++
    [rewriteTopName, rewriteName]

theorem patternName_injective {tag tag' : RuleTag} (h : patternName tag = patternName tag') :
    tag = tag' := by
  refine RuleTag.text_injective (String.toList_injective ?_)
  have h := congrArg String.toList h
  simp only [patternName, String.toList_append] at h
  exact List.append_cancel_left h

theorem resultName_injective {tag tag' : RuleTag} (h : resultName tag = resultName tag') :
    tag = tag' := by
  refine RuleTag.text_injective (String.toList_injective ?_)
  have h := congrArg String.toList h
  simp only [resultName, String.toList_append] at h
  exact List.append_cancel_left h

/-- What a name starts with tells which kind of function it is of. -/
theorem take_patternName (tag : RuleTag) :
    (patternName tag).toList.take 4 = ['p', 'a', 't', '_'] := by
  rw [patternName, String.toList_append]
  rfl

theorem take_resultName (tag : RuleTag) :
    (resultName tag).toList.take 4 = ['r', 't', 'e', 'r'] := by
  rw [resultName, String.toList_append]
  rfl

theorem nodup_taggedRules (rules : List Rule) (b : Bounds) :
    (taggedRules rules b).Pairwise (·.1 ≠ ·.1) := by
  unfold taggedRules
  refine List.Pairwise.filterMap _ ?_ b.nodup_ruleTags
  intro tag tag' hne r hr r' hr'
  obtain ⟨_, -, rfl⟩ := Option.map_eq_some_iff.mp hr
  obtain ⟨_, -, rfl⟩ := Option.map_eq_some_iff.mp hr'
  exact hne

/-- The tagged rules are the rules of the tags. -/
theorem mem_taggedRules_iff {rules : List Rule} {b : Bounds} {tag : RuleTag} {rule : Rule} :
    (tag, rule) ∈ taggedRules rules b ↔ tag.rule < b.ruleCount ∧ rules[tag.rule]? = some rule := by
  unfold taggedRules
  rw [List.mem_filterMap]
  constructor
  · rintro ⟨tag', htag, h⟩
    obtain ⟨rule', hrule, he⟩ := Option.map_eq_some_iff.mp h
    cases he
    exact ⟨Bounds.mem_ruleTags_iff.mp htag, hrule⟩
  · rintro ⟨htag, hrule⟩
    exact ⟨tag, Bounds.mem_ruleTags_iff.mpr htag, by rw [hrule]; rfl⟩

/-- The names of the functions of the tagged rules. -/
abbrev ruleNames (tagged : List (RuleTag × Rule)) : List String :=
  tagged.flatMap fun r => [patternName r.1, resultName r.1]

theorem patternName_ne_resultName (tag tag' : RuleTag) : patternName tag ≠ resultName tag' := by
  intro h
  have htake := take_patternName tag
  rw [h, take_resultName] at htake
  exact absurd htake (by decide)

/-- The functions of rules have names of their own. -/
theorem take_of_mem_ruleNames {tagged : List (RuleTag × Rule)} {name : String}
    (h : name ∈ ruleNames tagged) :
    name.toList.take 4 = ['p', 'a', 't', '_'] ∨ name.toList.take 4 = ['r', 't', 'e', 'r'] := by
  obtain ⟨r, -, hr⟩ := List.mem_flatMap.mp h
  simp only [List.mem_cons, List.not_mem_nil, or_false] at hr
  rcases hr with rfl | rfl
  · exact .inl (take_patternName r.1)
  · exact .inr (take_resultName r.1)

theorem nodup_ruleNames (rules : List Rule) (b : Bounds) :
    (ruleNames (taggedRules rules b)).Nodup := by
  rw [List.nodup_flatMap]
  refine ⟨fun r _ => by simpa using patternName_ne_resultName r.1 r.1,
    (nodup_taggedRules rules b).imp ?_⟩
  intro r r' hr name h h'
  simp only [List.mem_cons, List.not_mem_nil, or_false] at h h'
  rcases h with rfl | rfl <;> rcases h' with h' | h'
  · exact hr (patternName_injective h')
  · exact patternName_ne_resultName _ _ h'
  · exact patternName_ne_resultName _ _ h'.symm
  · exact hr (resultName_injective h')

theorem nodup_definedNames (rules : List Rule) (b : Bounds) : (definedNames rules b).Nodup := by
  have hgetAt : getAtName ∉ ruleNames (taggedRules rules b) :=
    fun h => absurd (take_of_mem_ruleNames h) (by decide)
  have hreplaceAt : replaceAtName ∉ ruleNames (taggedRules rules b) :=
    fun h => absurd (take_of_mem_ruleNames h) (by decide)
  have hrewriteTop : rewriteTopName ∉ ruleNames (taggedRules rules b) :=
    fun h => absurd (take_of_mem_ruleNames h) (by decide)
  have hrewrite : rewriteName ∉ ruleNames (taggedRules rules b) :=
    fun h => absurd (take_of_mem_ruleNames h) (by decide)
  have hrules := nodup_ruleNames rules b
  have hfixed : [getAtName, replaceAtName, rewriteTopName, rewriteName].Nodup := by decide
  show ([getAtName, replaceAtName] ++ ruleNames (taggedRules rules b) ++
    [rewriteTopName, rewriteName]).Nodup
  generalize ruleNames (taggedRules rules b) = names at *
  simp only [List.nodup_cons, List.mem_cons, List.not_mem_nil, or_false, not_or,
    List.cons_append, List.nil_append, List.mem_append, List.nodup_append] at hfixed ⊢
  refine ⟨⟨hfixed.1.1, hgetAt, hfixed.1.2⟩, ⟨hreplaceAt, hfixed.2.1⟩, hrules, by decide, ?_⟩
  rintro name hname other (rfl | rfl) rfl
  · exact hrewriteTop hname
  · exact hrewrite hname

/-! ## Calls -/

namespace Layout

variable {rules : List Rule} {book : CodeBook} {b : Bounds} {fs : List FunDef}

theorem names (L : Layout rules book b fs) : fs.map (·.name) = definedNames rules b := by
  have hrules : L.rules.flatMap (fun g => [g.pattern.name, g.result.name]) =
      (taggedRules rules b).flatMap fun r => [patternName r.1, resultName r.1] := by
    have h := L.rules_meet
    generalize taggedRules rules b = tagged at h ⊢
    generalize L.rules = gs at h ⊢
    induction h with
    | nil => rfl
    | @cons r g tagged gs hg _ ih =>
      rw [List.flatMap_cons, List.flatMap_cons, ih, hg.pattern.name_eq, hg.result.name_eq]
  rw [L.order, definedNames, ← hrules]
  simp [List.map_flatMap, L.getAt_meets.name_eq, L.replaceAt_meets.name_eq,
    L.rewriteTop_meets.name_eq, L.rewrite_meets.name_eq]

/-- **No two definitions have one name.** -/
theorem distinct (L : Layout rules book b fs) : (fs.map (·.name)).Nodup :=
  L.names ▸ nodup_definedNames rules b

/-- The definitions before the last two. -/
def early (L : Layout rules book b fs) : List FunDef :=
  L.getAt :: L.replaceAt :: L.rules.flatMap fun g => [g.pattern, g.result]

theorem order_early (L : Layout rules book b fs) :
    fs = L.early ++ [L.rewriteTop] ++ [L.rewrite] := by
  rw [List.append_assoc]
  exact L.order

/-- The functions of a tagged rule are among the definitions. -/
theorem exists_rule (L : Layout rules book b fs) {r : RuleTag × Rule}
    (hr : r ∈ taggedRules rules b) : ∃ g ∈ L.rules, g.Meets book b.width r.1 r.2 :=
  exists_of_mem_left L.rules_meet hr

theorem mem_early_iff (L : Layout rules book b fs) {f : FunDef} :
    f ∈ L.early ↔ f = L.getAt ∨ f = L.replaceAt ∨ ∃ g ∈ L.rules, f = g.pattern ∨ f = g.result := by
  simp [early]

theorem mem_iff (L : Layout rules book b fs) {f : FunDef} :
    f ∈ fs ↔ f ∈ L.early ∨ f = L.rewriteTop ∨ f = L.rewrite := by
  have h : f ∈ fs ↔ f ∈ L.early ++ [L.rewriteTop] ++ [L.rewrite] :=
    iff_of_eq (congrArg (f ∈ ·) L.order_early)
  rw [h]
  simp

end Layout

/-- A rule applied at a path: the subtree there is selected, rewritten and put back. -/
def applyAt (rules : List Rule) (book : CodeBook) (b : Bounds) (x : Tree) (tag : RuleTag) (p : Path)
    (step : Int64) : Tree :=
  if x.isNode then
    putAt b x (applyRules book b.width (taggedRules rules b) (lookUp b x p) tag step) p
  else .error

namespace Layout

variable {rules : List Rule} {book : CodeBook} {b : Bounds} {t : FunctionTable}

section Calls

-- the definitions so far, `before`, hold at least the early ones
variable (L : Layout rules book b t.defs) {before : List FunDef}
  (sub : before.Sublist t.defs) (early : ∀ f ∈ L.early, f ∈ before) (n : Nat)

include sub

/-- A call of a definition that is met has the specified value, over the definitions so far. -/
theorem calls_of_meets {f : FunDef} {name : String} {sig : List Ty × Ty}
    {spec : Signature → Caller → List Value → Value → Prop} (hmeets : f.Meets name sig spec)
    (hf : f ∈ before) {F : Signature} {args : List Value} {v : Value}
    (hspec : spec F (t.callWithin n) args v) :
    Calls (.of before) (t.callWithin (n + 1)) name args v := by
  have hgives := hmeets.gives _ _ _ _ hspec
  have hsig := Signature.of_eq_some (t.distinct.sublist (sub.map _)) hf
  rw [FunDef.signature, ← hgives.args_ty, ← hgives.result_ty] at hsig
  rw [← hmeets.name_eq]
  exact ⟨hsig, t.callWithin_eq_ok (sub.subset hf) hgives⟩

include early

theorem calls_getAt (x : Tree) (p : Path) : Calls (.of before) (t.callWithin (n + 1)) getAtName
    [.tree x, .path p] (.tree (lookUp b x p)) := by
  refine calls_of_meets sub n L.getAt_meets (early _ (L.mem_early_iff.mpr (.inl rfl))) (F := .of []) ?_
  exact ⟨x, p, rfl, rfl⟩

theorem calls_replaceAt (x y : Tree) (p : Path) :
    Calls (.of before) (t.callWithin (n + 1)) replaceAtName [.tree x, .tree y, .path p]
      (.tree (putAt b x y p)) := by
  refine calls_of_meets sub n L.replaceAt_meets (early _ (L.mem_early_iff.mpr (.inr (.inl rfl))))
    (F := .of []) ?_
  exact ⟨x, y, p, rfl, rfl⟩

theorem ruleCalls (x : Tree) (s : Int64) {r : RuleTag × Rule} (hr : r ∈ taggedRules rules b) :
    RuleCalls (.of before) (t.callWithin (n + 1)) book b.width x s r := by
  obtain ⟨g, hg, hmeets⟩ := L.exists_rule hr
  constructor
  · refine calls_of_meets sub n hmeets.pattern (early _ ?_) (F := .of []) ⟨x, rfl, rfl⟩
    exact L.mem_early_iff.mpr (.inr (.inr ⟨g, hg, .inl rfl⟩))
  · refine calls_of_meets sub n hmeets.result (early _ ?_) (F := .of []) ⟨x, s, rfl, rfl⟩
    exact L.mem_early_iff.mpr (.inr (.inr ⟨g, hg, .inr rfl⟩))

theorem rewriteTop_spec (x : Tree) (tag : RuleTag) (s : Int64) :
    RewriteTopSpec book b.width (taggedRules rules b) (.of before) (t.callWithin (n + 1))
      [.tree x, .rule tag, .int s]
      (.tree (applyRules book b.width (taggedRules rules b) x tag s)) :=
  ⟨x, tag, s, rfl, fun _ hr => L.ruleCalls sub early n x s hr, rfl⟩

variable (top : L.rewriteTop ∈ before)

include top

theorem calls_rewriteTop (x : Tree) (tag : RuleTag) (s : Int64) :
    Calls (.of before) (t.callWithin (n + 2)) rewriteTopName [.tree x, .rule tag, .int s]
      (.tree (applyRules book b.width (taggedRules rules b) x tag s)) :=
  calls_of_meets sub (n + 1) L.rewriteTop_meets top (L.rewriteTop_spec sub early n x tag s)

theorem rewrite_spec (x : Tree) (tag : RuleTag) (p : Path) (s : Int64) :
    RewriteSpec (.of before) (t.callWithin (n + 2)) [.tree x, .rule tag, .path p, .int s]
      (.tree (applyAt rules book b x tag p s)) :=
  ⟨x, tag, p, s, _, _, _, rfl, L.calls_getAt sub early (n + 1) x p,
    L.calls_rewriteTop sub early n top _ tag s, L.calls_replaceAt sub early (n + 1) x _ p, rfl⟩

end Calls

theorem rewriteTop_mem (L : Layout rules book b t.defs) : L.rewriteTop ∈ t.defs :=
  L.mem_iff.mpr (.inr (.inl rfl))

/-- **A call of `rewrite` applies the rule at the path.** -/
theorem calls_rewrite (L : Layout rules book b t.defs) (n : Nat) (x : Tree) (tag : RuleTag) (p : Path)
    (s : Int64) : Calls (.of t.defs) (t.callWithin (n + 3)) rewriteName
      [.tree x, .rule tag, .path p, .int s] (.tree (applyAt rules book b x tag p s)) :=
  calls_of_meets (.refl _) (n + 2) L.rewrite_meets (L.mem_iff.mpr (.inr (.inr rfl)))
    (L.rewrite_spec (.refl _) (fun _ hf => L.mem_iff.mpr (.inl hf)) n L.rewriteTop_mem x tag p s)

/-! ## Layers -/

theorem typed_of_meets {f : FunDef} {name : String} {sig : List Ty × Ty}
    {spec : Signature → Caller → List Value → Value → Prop} (hmeets : f.Meets name sig spec)
    {F : Signature} (call : Caller) {args : List Value} {v : Value} (hspec : spec F call args v) :
    HasType F (contextOf f.params) f.body f.result := by
  have hgives := hmeets.gives _ _ _ _ hspec
  rw [← hgives.result_ty]
  exact hgives.body.typed

/-- **Each definition is well typed over those before it.** -/
theorem layered (L : Layout rules book b t.defs) : Layered [] t.defs := by
  have hearly : Layered [] L.early := by
    refine layered_of_typed (fun f hf F => ?_) []
    rcases L.mem_early_iff.mp hf with rfl | rfl | ⟨g, hg, h⟩
    · exact typed_of_meets L.getAt_meets (t.callWithin 0) ⟨.error, [], rfl, rfl⟩
    · exact typed_of_meets L.replaceAt_meets (t.callWithin 0) ⟨.error, .error, [], rfl, rfl⟩
    · obtain ⟨r, -, hmeets⟩ := exists_of_mem_left L.rules_meet.flip hg
      rcases h with rfl | rfl
      · exact typed_of_meets hmeets.pattern (t.callWithin 0) ⟨.error, rfl, rfl⟩
      · exact typed_of_meets hmeets.result (t.callWithin 0) ⟨.error, 0, rfl, rfl⟩
  have hsub : (L.early ++ [L.rewriteTop]).Sublist t.defs := by
    conv_rhs => rw [L.order_early]
    exact List.sublist_append_left _ _
  have htop := typed_of_meets L.rewriteTop_meets _
    (L.rewriteTop_spec ((List.sublist_append_left _ _).trans hsub) (fun _ h => h) 0 .error
      ⟨0, .forward⟩ 0)
  have hrewrite := typed_of_meets L.rewrite_meets _
    (L.rewrite_spec hsub (fun _ h => List.mem_append_left _ h) 0 (by simp) .error ⟨0, .forward⟩ [] 0)
  have hlast : Layered ([] ++ L.early) [L.rewriteTop, L.rewrite] := ⟨htop, hrewrite, trivial⟩
  rw [L.order_early, List.append_assoc]
  exact hearly.append hlast

end Layout

end Engine

end SortedRewriting
