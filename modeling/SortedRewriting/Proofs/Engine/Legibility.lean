import SortedRewriting.Proofs.Engine.Naming
import SortedRewriting.Proofs.Engine.Sorting
import SortedRewriting.Proofs.Theory.Annotation

/-!
# Every state of a run decodes

A tree keeps neither kinds nor sorts, yet rewriting leads from a tree that decodes to one that
decodes, whether its terms are well sorted or not: a sort is only put in the place of a sort, and a
term in the place of a term.

* `CodeBook.Legible`: a tree decodes, to a sort or to another term as told.
* `CodeBook.legible_of_fits`: what stands at the positions of a matched side. A bare variable
  tests the first child, which is a sort under a term only.
* `CodeBook.legible_constructed`: what is constructed of legible subtrees, and of tags that are
  read.
* `Engine.Compiled.denotes_registered`: the code of a registered symbol is read as some name of its
  kind, perhaps of another variable.
* `Engine.Compiled.decode_rewrite`: a step puts one legible tree in the place of another.
* **`Engine.RunInRange.exists_decode`**: so the states of a run decode, as long as no fresh code
  overflows; `Engine.Run.inRange` says up to which step no run does.
-/

namespace SortedRewriting

/-! ## Legible trees -/

namespace CodeBook

variable {b : CodeBook} {width : Nat} {c : Int64} {k : Kind} {e p t u : Expr} {as : List Expr}
  {x y : Tree} {q : Position}

/-- A tree decodes, to a sort or to another term as told. -/
def Legible (b : CodeBook) (isSort : Bool) (x : Tree) : Prop :=
  ∃ e, b.decode x = .ok e ∧ e.isSort = isSort

/-- A code is read as a name of a kind. -/
def Denotes (b : CodeBook) (c : Int64) (k : Kind) : Prop :=
  ∃ name, name ≠ "" ∧ b.symbol? c = some name ∧ b.kindOf name = k

theorem Reads.denotes (h : b.Reads e) (he : e.WellFormed) (hu : u.IsSubterm e) :
    b.Denotes (b.code u.sym) u.kind :=
  ⟨u.sym, (he.subterm hu).sym_ne_empty, h.symbols u hu, h.kinds u hu⟩

/-! ### Positions of a pattern -/

/-- The tag of a node tells whether it decodes to a sort. -/
theorem isSort_of_tag (ht : b.Reads t) (htag : y.tag = b.code t.sym) (h : b.decode y = .ok u) :
    u.isSort = t.isSort := by
  obtain ⟨c, cs, rfl⟩ := Tree.isNode_iff.mp (isNode_of_decode h)
  obtain ⟨s, as, hsymbol, -, -, rfl⟩ := decode_node_eq_ok_iff.mp h
  change c = _ at htag
  rw [htag, ht.symbols t (.refl t)] at hsymbol
  cases hsymbol
  rw [Expr.isSort, Expr.isSort, Expr.kind, ht.kinds t (.refl t)]

/-- **Where a tree passes the test of a pattern, a sort stands for a sort and a term for a term.** -/
theorem legible_of_fits (hp : p.WellFormed) (hreads : b.Reads p) (hw : 1 ≤ width)
    (hx : x.Canonical width) (h : b.decode x = .ok e)
    (hfits : ∀ q t, p.subterm? q = some t → NodeFits b width t (x.getAt q))
    (hq : p.subterm? q = some t) : b.Legible t.isSort (x.getAt q) := by
  have hnode : ∀ {q t}, p.subterm? q = some t → (x.getAt q).isNode = true := fun hq =>
    Tree.isNode_iff.mpr (exists_node_of_fits hp hw hfits hq)
  obtain ⟨u, -, hu⟩ := decode_getAt hx h (hnode hq)
  refine ⟨u, hu, ?_⟩
  by_cases hvar : t.isVar = true
  · -- the test of a variable is that of its sort, which is no child of a sort
    obtain ⟨k, name, as⟩ := t
    cases of_decide_eq_true hvar
    obtain ⟨S, rfl, hS, -⟩ := (hp.subterm ⟨q, hq⟩).var_args
    have hqS : p.subterm? (q ++ [0]) = some S := Expr.subterm?_append hq rfl
    have hSvar : S.isVar = false := decide_eq_false fun hk => by
      rw [Expr.isSort, hk] at hS
      cases hS
    have htag := (hfits _ S hqS hSvar).1
    have hchild := hnode hqS
    rw [Tree.getAt_concat] at htag hchild
    obtain ⟨v, hv, hdecode⟩ := decode_child (hx.getAt (hnode hq)) hu hchild
    have hvS := isSort_of_tag (hreads.subterm ⟨_, hqS⟩) htag hdecode
    obtain ⟨k, s, vs⟩ := u
    refine decide_eq_false fun hk => ?_
    change k = .sort at hk
    subst hk
    rw [(decode_wellFormed hu).sort_args (List.mem_of_getElem? hv), hS] at hvS
    cases hvS
  · have htag := (hfits q t hq (by simpa using hvar)).1
    exact isSort_of_tag (hreads.subterm ⟨q, hq⟩) htag hu

/-! ### Constructed trees -/

theorem exists_decode_map {f : Expr → Tree} (h : ∀ a ∈ as, b.Legible a.isSort (f a)) :
    ∃ vs, b.Decode (as.map f) vs ∧ vs.map Expr.isSort = as.map Expr.isSort := by
  induction as with
  | nil => exact ⟨[], .nil, rfl⟩
  | cons a as ih =>
    obtain ⟨⟨v, hv, hsort⟩, has⟩ := List.forall_mem_cons.mp h
    obtain ⟨vs, hvs, hsorts⟩ := ih has
    exact ⟨v :: vs, .cons hv hvs, by rw [List.map_cons, List.map_cons, hsort, hsorts]⟩

/-- **What is constructed decodes**, if the subtrees that are taken do, and tags are read as names of
the right kind. -/
theorem legible_constructed {tag : Kind → String → Int64} {source? : Option Expr}
    (htaken : ∀ source, source? = some source → ∀ q u, source.subterm? q = some u →
      b.Legible u.isSort (x.getAt q))
    (htag : ∀ u : Expr, u.IsSubterm t → b.Denotes (tag u.kind u.sym) u.kind) (ht : t.WellFormed)
    (hne : t.constructed width tag source? x ≠ .error) :
    b.Legible t.isSort (t.constructed width tag source? x) := by
  refine constructed_induction (P := fun u y => u.IsSubterm t → b.Legible u.isSort y)
    (fun k s as has hbuild hsub => ?_) (fun source hsource q u hu _ => htaken source hsource q u hu)
    hne (.refl t)
  obtain ⟨hshape, -⟩ := Expr.wellFormed_node_iff.mp (ht.subterm hsub)
  obtain ⟨vs, hvs, hsorts⟩ := exists_decode_map (b := b) fun a ha => has a ha (hsub.arg ha)
  obtain ⟨name, hname, hsymbol, hkind⟩ := htag _ hsub
  refine ⟨.node k name vs, decode_build hsymbol hkind ?_ hvs (Tree.build_ne_error hbuild).1, rfl⟩
  rw [Expr.checkShape_congr hsorts]
  exact Expr.checkShape_rename hname hshape

/-- The tree of an expression decodes, if all its codes are read as names of the right kind. -/
theorem legible_encode
    (hdenotes : ∀ u : Expr, u.IsSubterm e → b.Denotes (b.code u.sym) u.kind) (he : e.WellFormed)
    (hne : b.encode width e ≠ .error) : b.Legible e.isSort (b.encode width e) := by
  rw [← constructed_eq_encode (x := .error) 0 e] at hne ⊢
  refine legible_constructed nofun (fun u hu => ?_) he hne
  rw [freshTag_nil]
  exact hdenotes u hu

end CodeBook

/-! ## Theories that keep sorts and terms apart -/

/-- The sides of each rule have declared sorts and variables with names of their own, and are both
sorts or both terms. No declared symbol is called like an introduced variable. -/
structure Theory.KeepsKinds (T : Theory) : Prop where
  declares : ∀ r ∈ T.rules, T.Declares r.left ∧ T.Declares r.right
  sameKind : ∀ r ∈ T.rules, r.left.isSort = r.right.isSort
  names : ∀ s i, CodeBook.freshName s i ∉ T.ops ∧ CodeBook.freshName s i ∉ T.sorts

theorem Theory.KeepsKinds.sides {T : Theory} (h : T.KeepsKinds) {r : Rule} (hr : r ∈ T.rules)
    (dir : Direction) : (T.Declares (r.matched dir) ∧ T.Declares (r.produced dir)) ∧
      (r.matched dir).isSort = (r.produced dir).isSort := by
  cases dir with
  | forward => exact ⟨h.declares r hr, h.sameKind r hr⟩
  | reverse => exact ⟨(h.declares r hr).symm, (h.sameKind r hr).symm⟩

/-- A symbol outside the theory is no declared one. -/
theorem Theory.notMem_of_notMem_symbols {T : Theory} {sym : String} (h : sym ∉ T.symbols) :
    sym ∉ T.ops ∧ sym ∉ T.sorts := by
  rw [symbols, Std.ExtTreeSet.mem_ofList, List.contains_iff_mem, List.mem_append,
    List.mem_append] at h
  exact ⟨fun hops => h (.inl (.inr (Std.ExtTreeMap.mem_keys.mpr hops))),
    fun hsorts => h (.inl (.inl (Std.ExtTreeMap.mem_keys.mpr hsorts)))⟩

/-- No symbol of the theory has the code of a symbol outside it, as long as their numbers stay
below. -/
theorem CodeBook.IsOf.code_ne_fallbackCode {b : CodeBook} {T : Theory} (hb : b.IsOf T)
    (hsize : T.symbols.size < fallbackBase) {sym : String} (hsym : sym ∈ T.symbols)
    (other : String) : b.code sym ≠ fallbackCode other := by
  obtain ⟨n, hn, hcode⟩ := exists_of_mem_numbering (hb.mem_numbering_code hsym)
  have hle := le_fallbackCode other
  intro heq
  rw [← heq, hcode, Int64.toInt_ofNat_of_lt] at hle
  · omega
  · unfold fallbackBase at hsize
    omega

namespace Engine

variable {e : Engine} {tag : RuleTag} {rule : Rule} {t u v : Expr} {es : List Expr} {s n : Nat}
  {x x₀ y : Tree} {p : Path}

/-! ## Codes that are read -/

/-- **The code of a registered symbol is read as a name of its kind.** It is that of another variable,
if that had the code first. -/
theorem Compiled.denotes_registered (he : e.Compiled) (hbook : e.book = .recorded e.theory es)
    (hes : ∀ t ∈ es, t.WellFormed) (hsize : e.theory.symbols.size < CodeBook.fallbackBase)
    (ht : t ∈ es) (hdeclares : e.theory.Declares t) (hannotated : e.theory.Annotated t)
    (hu : u.IsSubterm t) : e.book.Denotes (e.book.code u.sym) u.kind := by
  have hb := he.intact.book
  have hkind := he.kindOf_sym hdeclares (fun s as hsub => (hannotated s as hsub).1) hu
  have hnumbers : e.theory.symbols.size < 2 ^ 63 := Nat.lt_trans hsize (by decide)
  by_cases hsym : u.sym ∈ e.theory.symbols
  · exact ⟨u.sym, ((hes t ht).subterm hu).sym_ne_empty, he.symbol?_code hnumbers hsym, hkind⟩
  · have hmem : u.sym ∈ es.flatMap (·.symbols.toList) :=
      List.mem_flatMap.mpr ⟨t, ht, Std.ExtTreeSet.mem_toList.mpr
        (Expr.mem_symbols_iff.mpr ⟨u, hu, rfl⟩)⟩
    have hrecords := CodeBook.records_recorded e.theory es
    have hof := CodeBook.isOf_ofTheory e.theory
    obtain ⟨name, hname⟩ := hrecords.named u.sym hmem (mt hof.mem_codes_iff.mp hsym)
    rw [← hrecords.code_eq u.sym, ← hbook] at hname
    -- a symbol of the theory has a code of its own, so this is a registered one as well
    have hout : name ∉ e.theory.symbols := by
      intro hin
      refine hb.code_ne_fallbackCode hsize hin u.sym ?_
      rw [← CodeBook.code_of_notMem (mt hb.mem_codes_iff.mp hsym)]
      exact (he.recording hnumbers).faithful _ name hname
    rw [hbook] at hname
    obtain ⟨t', ht', hmem'⟩ := (CodeBook.mem_symbols_of_recorded hname).resolve_left hout
    obtain ⟨u', hu', rfl⟩ := Expr.mem_symbols_iff.mp hmem'
    rw [← hbook] at hname
    refine ⟨u'.sym, ((hes t' ht').subterm hu').sym_ne_empty,
      (hb.symbol?_code hnumbers u.sym).trans hname, ?_⟩
    have hvar : ∀ sym ∉ e.theory.symbols, e.book.kindOf sym = .var := by
      intro sym hsym
      obtain ⟨hops, hsorts⟩ := Theory.notMem_of_notMem_symbols hsym
      rw [hb.kindOf_eq he.made.1.consistent, if_neg hops, if_neg hsorts]
    rw [hvar _ hout, ← hkind, hvar _ hsym]

/-- The sides of a rule are read back. -/
theorem Compiled.sides_read (he : e.Compiled) (hsize : e.theory.symbols.size < 2 ^ 63)
    (hT : e.theory.KeepsKinds) (hr : rule ∈ e.theory.rules) (dir : Direction) :
    e.book.Reads (rule.matched dir) ∧ e.book.Reads (rule.produced dir) := by
  obtain ⟨made, helaborate⟩ := he.made
  obtain ⟨⟨hmatched, hproduced⟩, -⟩ := hT.sides hr dir
  obtain ⟨hsymbols, hsymbols'⟩ := Theory.mem_symbols_of_rule hr dir
  obtain ⟨hannotated, hannotated'⟩ := Rule.both ((made.annotated helaborate).rules rule hr) dir
  have hreads : ∀ side : Expr, (∀ sym ∈ side.symbols, sym ∈ e.theory.symbols) →
      e.theory.Declares side → e.theory.Annotated side → e.book.Reads side :=
    fun side hsymbols hdeclares hannotated =>
      ⟨fun u hu => he.symbol?_code hsize (hsymbols u.sym (Expr.mem_symbols_iff.mpr ⟨u, hu, rfl⟩)),
        fun u hu => he.kindOf_sym hdeclares (fun s as hsub => (hannotated s as hsub).1) hu⟩
  exact ⟨hreads _ hsymbols hmatched hannotated, hreads _ hsymbols' hproduced hannotated'⟩

/-- The variables that a rule introduces in a step have codes in range. -/
def InRange (e : Engine) (tag : RuleTag) (s : Nat) : Prop :=
  ∀ rule ∈ e.rule? tag, ∀ i < CodeBook.introducedCount rule tag.direction,
    s * e.book.stride + (i + 1) < 2 ^ 63

instance (e : Engine) (tag : RuleTag) (s : Nat) : Decidable (e.InRange tag s) :=
  inferInstanceAs (Decidable (∀ rule ∈ e.rule? tag, _))

theorem InRange.introducesNames (h : e.InRange tag s) (hT : e.theory.KeepsKinds) :
    e.IntroducesNames tag s :=
  fun rule hr i hi => ⟨h rule hr i hi, hT.names s (i + 1)⟩

/-- The tags of the produced side are read, those of introduced variables included. -/
theorem Compiled.denotes_freshTag (he : e.Compiled) (hr : e.rule? tag = some rule)
    (hfresh : e.IntroducesNames tag s) (hproduced : e.book.Reads (rule.produced tag.direction))
    (hu : u.IsSubterm (rule.produced tag.direction)) :
    e.book.Denotes (e.book.freshTag ((rule.produced tag.direction).varsOutside
      (rule.matched tag.direction)) (.ofNat s) u.kind u.sym) u.kind := by
  have hcode := hproduced.denotes (he.intact.sides hr tag.direction).2 hu
  obtain ⟨k, sym, as⟩ := u
  by_cases hk : k = .var
  · subst hk
    cases hi : rule.freshIndex? tag.direction sym with
    | some i =>
      obtain ⟨hsymbol, hkind⟩ := he.symbol?_introduced hr hfresh hi
      rw [Expr.kind, Expr.sym, CodeBook.freshTag_of_freshIndex? hi]
      exact ⟨_, CodeBook.freshName_ne_empty s i, hsymbol, hkind⟩
    | none =>
      rw [Expr.kind, Expr.sym, CodeBook.freshTag_of_freshIndex?_eq_none hi]
      exact hcode
  · rw [Expr.kind, Expr.sym, CodeBook.freshTag_of_ne hk]
    exact hcode

/-! ## Steps -/

/-- **A step puts a term in the place of a term, or a sort in the place of a sort.** -/
theorem Compiled.decode_rewrite (he : e.Compiled) (hsize : e.theory.symbols.size < 2 ^ 63)
    (hT : e.theory.KeepsKinds) (hrange : e.InRange tag s) (hx : x.Canonical e.bounds.width)
    (hv : e.book.decode x = .ok v) (h : e.rewrite x tag p (.ofNat s) = .ok y) (hy : y ≠ .error) :
    ∃ u r, v.subterm? p = some u ∧ r.isSort = u.isSort ∧
      e.book.decode y = .ok (v.replaceAt p r) := by
  have hi := he.intact
  rw [he.rewrite_eq, Except.ok.injEq, hi.applyAt_eq_iff hx.regular.uniform hy] at h
  obtain ⟨rule, hr, -, hholds, rfl⟩ := h
  have hmem := List.mem_of_getElem? hr
  obtain ⟨hmatched, hproduced⟩ := hi.sides hr tag.direction
  obtain ⟨hreads, hreads'⟩ := he.sides_read hsize hT hmem tag.direction
  have hnode := hi.isNode_of_holds hr hholds
  obtain ⟨u, hu, hdecode⟩ := CodeBook.decode_getAt hx hv hnode
  have hlegible : ∀ q t, (rule.matched tag.direction).subterm? q = some t →
      e.book.Legible t.isSort ((x.getAt p).getAt q) := fun q t hq =>
    CodeBook.legible_of_fits hmatched hreads (Nat.le_of_succ_le hi.two_le_width)
      (hx.getAt hnode) hdecode (patternHolds_iff.mp hholds).1 hq
  have hne : ruleResult e.book e.bounds.width tag rule (x.getAt p) (.ofNat s) ≠ .error :=
    fun herror => hy (by rw [herror, Tree.replaceAt_error])
  obtain ⟨r, hresult, hsort⟩ := CodeBook.legible_constructed
    (fun source hsource q t hq => by cases hsource; exact hlegible q t hq)
    (fun t ht => he.denotes_freshTag hr (hrange.introducesNames hT) hreads' ht) hproduced hne
  have hkind : r.isSort = u.isSort := by
    obtain ⟨u', hu', hmatchedSort⟩ := hlegible [] _ rfl
    cases hdecode.symm.trans hu'
    rw [hsort, hmatchedSort, (hT.sides hmem tag.direction).2]
  exact ⟨u, r, hu, hkind, CodeBook.decode_replaceAt_of_canonical hx hv hu hresult hkind⟩

/-! ## Runs -/

/-- A run in which the codes of all variables that are introduced are in range. -/
inductive RunInRange (e : Engine) (x₀ : Tree) : Nat → Tree → Prop
  | start : RunInRange e x₀ 0 x₀
  | step {n : Nat} {x y : Tree} {tag : RuleTag} {p : Path} (run : RunInRange e x₀ n x)
      (range : e.InRange tag n) (rewrite : e.rewrite x tag p (.ofNat n) = .ok y) :
      RunInRange e x₀ (n + 1) y

theorem RunInRange.run (h : e.RunInRange x₀ n x) : e.Run x₀ n x := by
  induction h with
  | start => exact .start
  | step _ _ rewrite ih => exact ih.step rewrite

/-- A step is in range where all codes of its block are. -/
theorem Compiled.inRange (he : e.Compiled) (hrange : (s + 1) * e.book.stride ≤ 2 ^ 63) :
    e.InRange tag s := by
  intro rule hr i hi
  have hcount := CodeBook.introducedCount_lt (List.mem_of_getElem? hr) tag.direction
  rw [← he.intact.book.stride_eq] at hcount
  rw [Nat.succ_mul] at hrange
  omega

/-- Runs are in range until the block of a step reaches the end of the range. -/
theorem Run.inRange (he : e.Compiled) (run : e.Run x₀ n x) (hrange : n * e.book.stride ≤ 2 ^ 63) :
    e.RunInRange x₀ n x := by
  induction run with
  | start => exact .start
  | step _ rewrite ih =>
    have hless := Nat.le_trans (Nat.mul_le_mul_right _ (Nat.le_succ _)) hrange
    exact (ih hless).step (he.inRange hrange) rewrite

/-- **The states of a run decode**, those that are no errors, if the start does. -/
theorem RunInRange.exists_decode (he : e.Compiled) (hsize : e.theory.symbols.size < 2 ^ 63)
    (hT : e.theory.KeepsKinds)
    (hstart : e.treeOf t ≠ .error → ∃ v, e.book.decode (e.treeOf t) = .ok v)
    (h : e.RunInRange (e.treeOf t) n x) (hx : x ≠ .error) : ∃ v, e.book.decode x = .ok v := by
  induction h with
  | start => exact hstart hx
  | @step n x y tag p run range rewrite ih =>
    have hne : x ≠ .error := by
      rintro rfl
      rw [he.rewrite_error] at rewrite
      exact hx (Except.ok.inj rewrite).symm
    obtain ⟨v, hv⟩ := ih hne
    have hcanonical := run.run.canonical_of_treeOf he hne
    obtain ⟨u, r, -, -, hy⟩ := he.decode_rewrite hsize hT range hcanonical hv rewrite hx
    exact ⟨_, hy⟩

end Engine

end SortedRewriting
