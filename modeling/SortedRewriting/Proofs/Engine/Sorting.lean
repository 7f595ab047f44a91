import SortedRewriting.Proofs.Engine.Decoding
import SortedRewriting.Proofs.Engine.Simulation
import SortedRewriting.Proofs.Theory.Substitution

/-!
# What rewriting does to sorts

A rule whose sides carry the same sort puts a well-sorted term in the place of one of the same sort.
The applications above the path keep the sorts that they carry, whether these are still the sorts of
their operands or not: with sorts that depend on terms, they need not be.

* **`Engine.Compiled.rewrite_sorted`**: the tree that a step leads to decodes to the term with a
  well-sorted term of the same sort at the path. Elaboration leaves it as it is exactly if every
  application above the path still carries the sort of its operands, and so it is below arguments
  that the declarations mention once.
* `Engine.Compiled.rewrite_unsorted`: a step in the operand of an application that carries a
  dependent sort.
* `Engine.Compiled.rewrite_out_of_range`: a step with a counter so large that its result does not
  decode.
-/

namespace SortedRewriting

open Bindings (Assignment)

/-! ## Theories whose rules respect sorts -/

namespace Theory

/-- The sorts of an expression are declared, and its variables have no names of declared symbols. -/
def Declares (T : Theory) (e : Expr) : Prop :=
  ∀ u : Expr, u.IsSubterm e → (u.kind = .sort → u.sym ∈ T.sorts) ∧
    (u.kind = .var → u.sym ∉ T.ops ∧ u.sym ∉ T.sorts)

instance (T : Theory) (e : Expr) : Decidable (T.Declares e) :=
  decidable_of_iff _ Expr.forall_isSubterm_iff.symm

/-- Declarations use each variable with one sort, and those of a result sort in an argument. The
sides of a rule use each variable with one sort and carry the same sort; the digests of their
subterms are distinct. -/
structure Disciplined (T : Theory) : Prop where
  closed : T.Closed
  singleSorted : ∀ r ∈ T.rules, SingleSorted [r.left, r.right]
  sameSort : ∀ r ∈ T.rules, r.left.sortOf? = r.right.sortOf?
  declares : ∀ r ∈ T.rules, T.Declares r.left ∧ T.Declares r.right
  digests : ∀ r ∈ T.rules, r.left.DistinctDigests ∧ r.right.DistinctDigests

theorem disciplined_iff {T : Theory} : T.Disciplined ↔ T.Closed ∧ ∀ r ∈ T.rules,
    SingleSorted [r.left, r.right] ∧ r.left.sortOf? = r.right.sortOf? ∧
      (T.Declares r.left ∧ T.Declares r.right) ∧
      (r.left.DistinctDigests ∧ r.right.DistinctDigests) :=
  ⟨fun h => ⟨h.closed, fun r hr =>
      ⟨h.singleSorted r hr, h.sameSort r hr, h.declares r hr, h.digests r hr⟩⟩,
    fun h => ⟨h.1, fun r hr => (h.2 r hr).1, fun r hr => (h.2 r hr).2.1,
      fun r hr => (h.2 r hr).2.2.1, fun r hr => (h.2 r hr).2.2.2⟩⟩

instance (T : Theory) : Decidable T.Disciplined := decidable_of_iff _ disciplined_iff.symm

/-- What the sides of a rule have in common, whichever way it is applied. -/
theorem Disciplined.sides {T : Theory} (h : T.Disciplined) {r : Rule} (hr : r ∈ T.rules)
    (dir : Direction) : SingleSorted [r.matched dir, r.produced dir] ∧
      (r.matched dir).sortOf? = (r.produced dir).sortOf? ∧ T.Declares (r.matched dir) ∧
      T.Declares (r.produced dir) ∧ (r.matched dir).DistinctDigests := by
  cases dir with
  | forward =>
    exact ⟨h.singleSorted r hr, h.sameSort r hr, (h.declares r hr).1, (h.declares r hr).2,
      (h.digests r hr).1⟩
  | reverse =>
    exact ⟨(h.singleSorted r hr).swap, (h.sameSort r hr).symm, (h.declares r hr).2,
      (h.declares r hr).1, (h.digests r hr).2⟩

theorem mem_symbols_of_rule {T : Theory} {r : Rule} (hr : r ∈ T.rules) (dir : Direction) :
    (∀ sym ∈ (r.matched dir).symbols, sym ∈ T.symbols) ∧
      ∀ sym ∈ (r.produced dir).symbols, sym ∈ T.symbols := by
  have hpattern : ∀ e ∈ [r.left, r.right], ∀ sym ∈ e.symbols, sym ∈ T.symbols := by
    intro e he sym hsym
    have hmem : e ∈ T.patterns :=
      List.mem_append_right _ (List.mem_flatMap.mpr ⟨r, hr, he⟩)
    rw [symbols, Std.ExtTreeSet.mem_ofList, List.contains_iff_mem]
    exact List.mem_append_right _
      (List.mem_flatMap.mpr ⟨e, hmem, Std.ExtTreeSet.mem_toList.mpr hsym⟩)
  exact Rule.both (P := fun e => ∀ sym ∈ e.symbols, sym ∈ T.symbols)
    ⟨hpattern r.left (by simp), hpattern r.right (by simp)⟩ dir

end Theory

/-! ## Steps -/

/-- The name that decoding gives a variable of the produced side: by step and index, if the rule
introduces it. -/
def Rule.readName (r : Rule) (dir : Direction) (s : Nat) (name : String) : String :=
  match r.freshIndex? dir name with
  | some i => CodeBook.freshName s i
  | none => name

theorem CodeBook.freshName_ne_empty (s i : Nat) : freshName s i ≠ "" := by
  intro h
  have hlen := congrArg String.length h
  simp [freshName] at hlen

/-- A variable of the produced side that the matched side lacks has an index. -/
theorem Rule.exists_freshIndex? {r : Rule} {dir : Direction} {name : String}
    (h : name ∈ (r.produced dir).varNames) (hnew : name ∉ (r.matched dir).varNames) :
    ∃ i < CodeBook.introducedCount r dir, r.freshIndex? dir name = some (i + 1) := by
  have hmem : name ∈ (r.produced dir).varsOutside (r.matched dir) :=
    Expr.mem_varsOutside_iff.mpr ⟨h, hnew⟩
  cases hidx : ((r.produced dir).varsOutside (r.matched dir)).idxOf? name with
  | none => exact absurd hmem (List.idxOf?_eq_none_iff.mp hidx)
  | some i =>
    exact ⟨i, (List.idxOf?_eq_some_iff.mp hidx).1, by rw [freshIndex?, hidx]; rfl⟩

namespace Engine

variable {e : Engine} {tag : RuleTag} {rule : Rule} {t u : Expr} {s : Nat}

theorem Compiled.made (he : e.Compiled) : e.theory.Made ∧ e.theory.elaborated = true := by
  induction he with
  | @compile theory depth e made compile =>
    obtain ⟨theory', helaborate, h⟩ := bind_eq_ok_iff.mp compile
    cases h
    exact ⟨made.elaborated helaborate, Theory.elaborated_of_elaborate helaborate⟩
  | register _ expr ih => exact ih

/-- In an expression whose sorts are declared, and whose applications are of declared operators, every
symbol has the kind that it is declared with. -/
theorem Compiled.kindOf_sym (he : e.Compiled) (hdeclares : e.theory.Declares t)
    (hops : ∀ s as, Expr.IsSubterm (.node .app s as) t → s ∈ e.theory.ops) (hu : u.IsSubterm t) :
    e.book.kindOf u.sym = u.kind := by
  have hconsistent := he.made.1.consistent
  obtain ⟨hsort, hvar⟩ := hdeclares u hu
  obtain ⟨k, sym, as⟩ := u
  simp only [Expr.sym, Expr.kind] at hsort hvar ⊢
  rw [he.intact.book.kindOf_eq hconsistent]
  cases k with
  | var => rw [if_neg (hvar rfl).1, if_neg (hvar rfl).2]
  | app => exact if_pos (hops sym as hu)
  | sort =>
    have hnot : sym ∉ e.theory.ops := fun hmem => hconsistent.notMem_sorts hmem (hsort rfl)
    rw [if_neg hnot, if_pos (hsort rfl)]

/-- A well-sorted expression is read back, if its symbols are on record. -/
theorem Compiled.reads (he : e.Compiled) (ht : Theory.WellSorted e.theory.operators t)
    (hdeclares : e.theory.Declares t)
    (hrecord : ∀ sym ∈ t.symbols, e.book.symbol? (e.book.code sym) = some sym) :
    e.book.Reads t := by
  refine ⟨fun u hu => hrecord u.sym (Expr.mem_symbols_iff.mpr ⟨u, hu, rfl⟩),
    fun u hu => he.kindOf_sym hdeclares (fun sym as hsub => ?_) hu⟩
  obtain ⟨-, -, checked⟩ := Theory.wellSorted_node_iff.mp (ht.subterm hsub)
  obtain ⟨decl, hdecl, -⟩ := checked rfl
  exact Theory.mem_ops_iff.mpr ⟨decl, hdecl⟩

/-- The variables that a rule introduces in a step have codes in range and names of their own. -/
def IntroducesNames (e : Engine) (tag : RuleTag) (s : Nat) : Prop :=
  ∀ rule ∈ e.rule? tag, ∀ i < CodeBook.introducedCount rule tag.direction,
    s * e.book.stride + (i + 1) < 2 ^ 63 ∧ CodeBook.freshName s (i + 1) ∉ e.theory.ops ∧
      CodeBook.freshName s (i + 1) ∉ e.theory.sorts

instance (e : Engine) (tag : RuleTag) (s : Nat) : Decidable (e.IntroducesNames tag s) :=
  inferInstanceAs (Decidable (∀ rule ∈ e.rule? tag, _))

/-- The code of a variable that a rule introduces is read as its name, which is that of a variable. -/
theorem Compiled.symbol?_introduced (he : e.Compiled) (hr : e.rule? tag = some rule)
    (hfresh : e.IntroducesNames tag s) {name : String} {i : Nat}
    (hi : rule.freshIndex? tag.direction name = some i) :
    e.book.symbol? (e.book.freshCode (.ofNat s) i) = some (CodeBook.freshName s i) ∧
      e.book.kindOf (CodeBook.freshName s i) = .var := by
  obtain ⟨hpos, hstride⟩ := CodeBook.freshIndex?_lt (List.mem_of_getElem? hr) hi
  rw [← he.intact.book.stride_eq] at hstride
  obtain ⟨j, hj, rfl⟩ := Option.map_eq_some_iff.mp hi
  obtain ⟨hrange, hops, hsorts⟩ := hfresh rule hr j (List.idxOf?_eq_some_iff.mp hj).1
  refine ⟨CodeBook.symbol?_freshCode hpos hstride hrange, ?_⟩
  rw [he.intact.book.kindOf_eq he.made.1.consistent, if_neg hops, if_neg hsorts]

/-- The tree of the produced side decodes to it, with what the match binds filled in. -/
theorem Compiled.decode_producedTree (he : e.Compiled) (hr : e.rule? tag = some rule)
    (hfresh : e.IntroducesNames tag s) (hproduced : e.book.Reads (rule.produced tag.direction))
    (hu : e.book.Reads u) (hwf : u.WellFormed) (hwidth : u.Within e.bounds.width)
    (hm : ((rule.matched tag.direction).matchWith u).isFailed = false)
    (hne : e.producedTree rule tag.direction ((rule.matched tag.direction).matchWith u) (.ofNat s) ≠
      .error) :
    e.book.decode (e.producedTree rule tag.direction ((rule.matched tag.direction).matchWith u)
      (.ofNat s)) = .ok ((rule.produced tag.direction).fill
        ((rule.matched tag.direction).matchWith u).get? (rule.readName tag.direction s)) := by
  obtain ⟨hmatched, hproducedWf⟩ := he.intact.sides hr tag.direction
  refine CodeBook.decode_instantiate (fun name x hx => ?_) (fun name hname hnone => ?_)
    (fun v hv hk => ?_) hproducedWf hne
  · obtain ⟨hsub, hsort⟩ := Expr.matchWith_binds hmatched hm hx
    exact ⟨CodeBook.decode_encode (hwf.subterm hsub) (hwidth.subterm hsub) (hu.subterm hsub),
      hsort⟩
  · have hnew := Theory.notMem_varNames_of_get? hmatched hm hnone
    obtain ⟨i, -, hi⟩ := Rule.exists_freshIndex? hname hnew
    obtain ⟨hsymbol, hkind⟩ := he.symbol?_introduced hr hfresh hi
    rw [Rule.readName, hi, CodeBook.freshTag_of_freshIndex? hi]
    exact ⟨hsymbol, hkind, CodeBook.freshName_ne_empty s (i + 1)⟩
  · rw [CodeBook.freshTag_of_ne hk]
    exact ⟨hproduced.symbols v hv, hproduced.kinds v hv⟩

/-- The sides of a rule are well sorted and read back. -/
theorem Compiled.sides_sorted (he : e.Compiled) (hsize : e.theory.symbols.size < 2 ^ 63)
    (hT : e.theory.Disciplined) (hr : rule ∈ e.theory.rules) (dir : Direction) :
    (Theory.WellSorted e.theory.operators (rule.matched dir) ∧ e.book.Reads (rule.matched dir)) ∧
      Theory.WellSorted e.theory.operators (rule.produced dir) ∧
        e.book.Reads (rule.produced dir) := by
  obtain ⟨made, helaborate⟩ := he.made
  have hrules := (made.settled helaborate hT.closed).2 rule hr
  obtain ⟨-, -, hmatched, hproduced, -⟩ := hT.sides hr dir
  obtain ⟨hsymbols, hsymbols'⟩ := Theory.mem_symbols_of_rule hr dir
  have hsorted := Rule.both hrules dir
  exact ⟨⟨hsorted.1,
      he.reads hsorted.1 hmatched fun sym h => he.symbol?_code hsize (hsymbols sym h)⟩,
    hsorted.2, he.reads hsorted.2 hproduced fun sym h => he.symbol?_code hsize (hsymbols' sym h)⟩

/-- A step from the tree of a term that is read back: the matched side of a rule matches a subterm,
and the produced side takes its place. -/
theorem Compiled.exists_match (he : e.Compiled) (hsize : e.theory.symbols.size < 2 ^ 63)
    (hT : e.theory.Disciplined) (ht : t.WellFormed) (hreads : e.book.Reads t)
    (hwidth : t.Within e.bounds.width) {step : Int64} {p : Path} {y : Tree}
    (h : e.rewrite (e.treeOf t) tag p step = .ok y) (hy : y ≠ .error) :
    ∃ rule u, e.rule? tag = some rule ∧ t.subterm? p = some u ∧
      ((rule.matched tag.direction).matchWith u).isFailed = false ∧
      (e.treeOf t).replaceAt p
        (e.producedTree rule tag.direction ((rule.matched tag.direction).matchWith u) step) =
          y := by
  have hi := he.intact
  have hregular : (e.treeOf t).Regular e.bounds.width := CodeBook.encode_regular hwidth
  rw [he.rewrite_eq, Except.ok.injEq, hi.applyAt_eq_iff hregular.uniform hy] at h
  obtain ⟨rule, hr, -, hholds, hreplaced⟩ := h
  have hmem := List.mem_of_getElem? hr
  obtain ⟨hs, -, -, -, hdigests⟩ := hT.sides hmem tag.direction
  obtain ⟨⟨hmatched, hreadsMatched⟩, -⟩ := he.sides_sorted hsize hT hmem tag.direction
  cases hu : t.subterm? p with
  | none =>
    have hempty : ((e.treeOf t).getAt p).isNode = false := CodeBook.getAt_encode_none hwidth hu
    rw [hi.isNode_of_holds hr hholds] at hempty
    cases hempty
  | some u =>
    have hsub : u.IsSubterm t := ⟨p, hu⟩
    have hget : (e.treeOf t).getAt p = e.treeOf u := CodeBook.getAt_encode hwidth hu
    have hsep : e.book.Separates [rule.matched tag.direction, t] :=
      CodeBook.separates_of_reads (List.forall_mem_cons.mpr ⟨hreadsMatched, by simpa using hreads⟩)
    rw [hget] at hholds hreplaced
    have hm := (patternHolds_encode_iff hmatched.wellFormed hs.left
      (Nat.le_of_succ_le hi.two_le_width) ht hwidth hsep hsub).mp hholds
    rw [hi.ruleResult_encode hr hs hdigests (ht.subterm hsub) (hwidth.subterm hsub) hm] at hreplaced
    exact ⟨rule, u, hr, rfl, hm, hreplaced⟩

/-- **A step puts a well-sorted term of the same sort in the place of a subterm.** The whole term is
left by elaboration as it is exactly if the applications above still carry the sorts of their
operands; they do, if the path goes into arguments that the declarations mention once. -/
theorem Compiled.rewrite_sorted (he : e.Compiled) (hsize : e.theory.symbols.size < 2 ^ 63)
    (hT : e.theory.Disciplined) (ht : e.theory.elaborateExpr t = .ok t)
    (hdeclares : e.theory.Declares t)
    (hrecord : ∀ sym ∈ t.symbols, e.book.symbol? (e.book.code sym) = some sym)
    (hfresh : e.IntroducesNames tag s) {p : Path} {y : Tree}
    (h : e.rewrite (e.treeOf t) tag p (.ofNat s) = .ok y) (hy : y ≠ .error) :
    ∃ u r, t.subterm? p = some u ∧ e.book.decode y = .ok (t.replaceAt p r) ∧
      e.theory.elaborateExpr r = .ok r ∧ r.sortOf? = u.sortOf? ∧
      (e.theory.elaborateExpr (t.replaceAt p r) = .ok (t.replaceAt p r) ↔
        Theory.Above e.theory.Carries (t.replaceAt p r) p) ∧
      (Theory.Shielded e.theory.operators t p →
        e.theory.elaborateExpr (t.replaceAt p r) = .ok (t.replaceAt p r)) := by
  obtain ⟨made, helaborate⟩ := he.made
  obtain ⟨hsettled, -⟩ := made.settled helaborate hT.closed
  have hops := hsettled.wellDeclared
  have hsorted := hsettled.elaborateExpr_eq_self_iff.mp ht
  have hreads := he.reads hsorted hdeclares hrecord
  have hwidth : t.Within e.bounds.width := by
    refine CodeBook.within_of_encode_ne_error (b := e.book) fun herror => hy ?_
    rw [treeOf, herror, he.rewrite_error] at h
    exact (Except.ok.inj h).symm
  obtain ⟨rule, u, hr, hu, hm, rfl⟩ :=
    he.exists_match hsize hT hsorted.wellFormed hreads hwidth h hy
  have hmem := List.mem_of_getElem? hr
  have hsub : u.IsSubterm t := ⟨p, hu⟩
  have huSorted := hsorted.subterm hsub
  obtain ⟨hs, hsort, -⟩ := hT.sides hmem tag.direction
  obtain ⟨⟨hmatched, -⟩, hproduced, hreadsProduced⟩ := he.sides_sorted hsize hT hmem tag.direction
  -- the produced side, with what the match binds and names for what the rule introduces
  have hne : e.producedTree rule tag.direction ((rule.matched tag.direction).matchWith u)
      (.ofNat s) ≠ .error := fun herror => hy (by rw [herror, Tree.replaceAt_error])
  have hdecoded := he.decode_producedTree hr hfresh hreadsProduced (hreads.subterm hsub)
    huSorted.wellFormed (hwidth.subterm hsub) hm hne
  obtain ⟨hkind, hsortR⟩ := Theory.sortOf?_produced (rule.readName tag.direction s) hops hmatched
    hproduced hs hsort hm
  have hnames : ∀ name ∈ (rule.produced tag.direction).varNames,
      name ∉ (rule.matched tag.direction).varNames → rule.readName tag.direction s name ≠ "" := by
    intro name hname hnew
    obtain ⟨i, -, hindex⟩ := Rule.exists_freshIndex? hname hnew
    rw [Rule.readName, hindex]
    exact CodeBook.freshName_ne_empty s (i + 1)
  have hrSorted := hmatched.produced _ hops hproduced hs huSorted hm hnames
  refine ⟨u, _, hu, CodeBook.decode_replaceAt hsorted.wellFormed hwidth hreads hu hdecoded hkind,
    hsettled.elaborateExpr_eq_self hrSorted, hsortR, ?_, fun hshielded => ?_⟩
  · rw [hsettled.elaborateExpr_eq_self_iff,
      Theory.wellSorted_replaceAt_iff hsorted hrSorted hu hkind]
    simp only [Theory.Above, hsettled.checked_iff]
  · exact hsettled.elaborateExpr_eq_self
      (hshielded.wellSorted hops hsorted hrSorted hu hkind hsortR).1

end Engine

/-! ## A theory of arrows -/

namespace Arrows

/-- An engine for objects, their images and their identities, for rewriting down to one level below
the root. -/
theorem exists_engine {P : Engine → Prop} [DecidablePred P]
    (h : theory.toOption.any (fun t => t.patterns.all (fun e => decide e.WellFormed) &&
        (Engine.compile t 1).toOption.any (P ·)) = true) : ∃ e : Engine, e.Compiled ∧ P e :=
  Engine.exists_compiled _ _ _ _ 1 h

end Arrows

namespace Engine

open Arrows in
/-- In the image of the image of an object, the inner one is an argument that is mentioned once. The
step that removes it leads to a term that elaboration leaves as it is. -/
theorem Compiled.rewrite_sorted_image : ∃ (e : Engine) (y : Tree), e.Compiled ∧
    e.rewrite (e.treeOf (image (image (objectVar "x")))) ⟨0, .forward⟩ [1] (.ofNat 0) = .ok y ∧
    e.book.decode y = .ok (image (objectVar "x")) ∧
    e.theory.elaborateExpr (image (objectVar "x")) = .ok (image (objectVar "x")) := by
  obtain ⟨e, he, hsize, hT, ht, hdeclares, hrecord, hfresh, hne, hdecode, hop⟩ :=
    Arrows.exists_engine (P := fun e =>
      e.theory.symbols.size < 2 ^ 63 ∧ e.theory.Disciplined ∧
      e.theory.elaborateExpr (image (image (objectVar "x"))) =
        .ok (image (image (objectVar "x"))) ∧
      e.theory.Declares (image (image (objectVar "x"))) ∧
      (∀ sym ∈ (image (image (objectVar "x"))).symbols.toList,
        e.book.symbol? (e.book.code sym) = some sym) ∧
      e.IntroducesNames ⟨0, .forward⟩ 0 ∧
      applyAt e.theory.rules e.book e.bounds (e.treeOf (image (image (objectVar "x"))))
        ⟨0, .forward⟩ [1] (.ofNat 0) ≠ .error ∧
      e.book.decode (applyAt e.theory.rules e.book e.bounds
        (e.treeOf (image (image (objectVar "x")))) ⟨0, .forward⟩ [1] (.ofNat 0)) =
          .ok (image (objectVar "x")) ∧
      e.theory.ops["F"]? = some ⟨"F", object, [objectVar "x"], ""⟩)
    (by decide +kernel)
  have hstep := he.rewrite_eq (e.treeOf (image (image (objectVar "x")))) ⟨0, .forward⟩ [1] (.ofNat 0)
  obtain ⟨u, r, hu, hy, -, -, -, hshielded⟩ := he.rewrite_sorted hsize hT ht hdeclares
    (fun sym hsym => hrecord sym (Std.ExtTreeSet.mem_toList.mpr hsym)) hfresh hstep hne
  have hresult : (image (image (objectVar "x"))).replaceAt [1] r = image (objectVar "x") :=
    Except.ok.inj (hy.symm.trans hdecode)
  refine ⟨e, _, he, hstep, hdecode, ?_⟩
  rw [← hresult]
  refine hshielded (.argument (j := 0) hop ⟨"x", object, rfl, ?_, ?_, ?_⟩ rfl .root)
  · decide +kernel
  · decide +kernel
  · intro j a hj ha
    cases j with
    | zero => exact absurd rfl hj
    | succ j => exact absurd ha nofun

open Arrows in
/-- **Elaboration need not leave the result of a step as it is.** In the identity of the image of an
object, the object is an argument that the sort of the identity mentions too. When it is rewritten,
the identity keeps the sort of the identity of the image. -/
theorem Compiled.rewrite_unsorted : ∃ (e : Engine) (t t' : Expr) (y : Tree), e.Compiled ∧
    e.theory.symbols.size < 2 ^ 63 ∧ e.theory.Disciplined ∧ e.theory.elaborateExpr t = .ok t ∧
    e.theory.Declares t ∧ (∀ sym ∈ t.symbols, e.book.symbol? (e.book.code sym) = some sym) ∧
    e.IntroducesNames ⟨0, .forward⟩ 0 ∧
    e.rewrite (e.treeOf t) ⟨0, .forward⟩ [1] (.ofNat 0) = .ok y ∧ y ≠ .error ∧
    e.book.decode y = .ok t' ∧
    t = identity (arrows (image (objectVar "x")) (image (objectVar "x"))) (image (objectVar "x")) ∧
    t' = identity (arrows (image (objectVar "x")) (image (objectVar "x"))) (objectVar "x") ∧
    e.theory.elaborateExpr t' =
      .ok (identity (arrows (objectVar "x") (objectVar "x")) (objectVar "x")) ∧
    e.theory.elaborateExpr t' ≠ .ok t' := by
  let t := identity (arrows (image (objectVar "x")) (image (objectVar "x"))) (image (objectVar "x"))
  let t' := identity (arrows (image (objectVar "x")) (image (objectVar "x"))) (objectVar "x")
  obtain ⟨e, he, hsize, hT, ht, hdeclares, hrecord, hfresh, hne, hdecode, helaborate, hchanged⟩ :=
    Arrows.exists_engine (P := fun e =>
      e.theory.symbols.size < 2 ^ 63 ∧ e.theory.Disciplined ∧ e.theory.elaborateExpr t = .ok t ∧
      e.theory.Declares t ∧
      (∀ sym ∈ t.symbols.toList, e.book.symbol? (e.book.code sym) = some sym) ∧
      e.IntroducesNames ⟨0, .forward⟩ 0 ∧
      applyAt e.theory.rules e.book e.bounds (e.treeOf t) ⟨0, .forward⟩ [1] (.ofNat 0) ≠ .error ∧
      e.book.decode (applyAt e.theory.rules e.book e.bounds (e.treeOf t) ⟨0, .forward⟩ [1]
        (.ofNat 0)) = .ok t' ∧
      e.theory.elaborateExpr t' =
        .ok (identity (arrows (objectVar "x") (objectVar "x")) (objectVar "x")) ∧
      e.theory.elaborateExpr t' ≠ .ok t')
    (by decide +kernel)
  exact ⟨e, t, t', _, he, hsize, hT, ht, hdeclares,
    fun sym hsym => hrecord sym (Std.ExtTreeSet.mem_toList.mpr hsym), hfresh,
    he.rewrite_eq _ _ _ _, hne, hdecode, rfl, rfl, helaborate, hchanged⟩

/-- The condition on introduced variables is needed: in step `2 ^ 62` the code of one wraps around,
and the result of the step does not decode. -/
theorem Compiled.rewrite_out_of_range : ∃ (e : Engine) (y : Tree), e.Compiled ∧
    e.theory.symbols.size < 2 ^ 63 ∧ e.theory.Disciplined ∧
    e.theory.elaborateExpr (Pairs.thingVar "x") = .ok (Pairs.thingVar "x") ∧
    e.theory.Declares (Pairs.thingVar "x") ∧
    (∀ sym ∈ (Pairs.thingVar "x").symbols, e.book.symbol? (e.book.code sym) = some sym) ∧
    e.rewrite (e.treeOf (Pairs.thingVar "x")) ⟨0, .reverse⟩ [] (.ofNat (2 ^ 62)) = .ok y ∧
    y ≠ .error ∧ e.book.decode y = .error (.unknownCode (.ofNat (2 ^ 63 - 1))) := by
  obtain ⟨e, he, hsize, hT, ht, hdeclares, hrecord, hne, hdecode⟩ :=
    Pairs.exists_engine (P := fun e =>
      e.theory.symbols.size < 2 ^ 63 ∧ e.theory.Disciplined ∧
      e.theory.elaborateExpr (Pairs.thingVar "x") = .ok (Pairs.thingVar "x") ∧
      e.theory.Declares (Pairs.thingVar "x") ∧
      (∀ sym ∈ (Pairs.thingVar "x").symbols.toList,
        e.book.symbol? (e.book.code sym) = some sym) ∧
      applyAt e.theory.rules e.book e.bounds (e.treeOf (Pairs.thingVar "x")) ⟨0, .reverse⟩ []
        (.ofNat (2 ^ 62)) ≠ .error ∧
      e.book.decode (applyAt e.theory.rules e.book e.bounds (e.treeOf (Pairs.thingVar "x"))
        ⟨0, .reverse⟩ [] (.ofNat (2 ^ 62))) = .error (.unknownCode (.ofNat (2 ^ 63 - 1))))
    (by decide +kernel)
  exact ⟨e, _, he, hsize, hT, ht, hdeclares,
    fun sym hsym => hrecord sym (Std.ExtTreeSet.mem_toList.mpr hsym), he.rewrite_eq _ _ _ _, hne,
    hdecode⟩

end Engine

end SortedRewriting
