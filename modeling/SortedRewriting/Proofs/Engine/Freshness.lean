import Mathlib.Algebra.Group.Nat.Defs
import SortedRewriting.Proofs.Engine.Compiled

/-!
# Introduced variables are fresh

A run (`Engine.Run`) rewrites again and again, and its step counter counts the steps. Each step has
a block of fresh codes of its own, and takes the codes of the variables that it introduces from
there.

* `CodeBook.toInt_freshCode`: a fresh code within the range of codes is the negated number
  `step * stride + index`. What is said of fresh codes follows from it.
* `Engine.Compiled.occurs_rewrite`: a step brings in the codes of symbols and of its own block.
* `Engine.Run.introduced`: the negative codes in a run are in the blocks of earlier steps.
* **`Engine.Compiled.keepsFresh`**: so no variable is ever introduced under a code that is in use
  (`Engine.KeepsFresh`).
-/

namespace SortedRewriting

/-! ## Fresh codes -/

namespace CodeBook

variable {b : CodeBook} {s s' i i' : Nat}

/-- The code is in the block of a step. -/
def Introduces (b : CodeBook) (s : Nat) (c : Int64) : Prop :=
  ∃ i, 1 ≤ i ∧ i < b.stride ∧ c = b.freshCode (.ofNat s) i

/-- The number of a variable, by which it is told from all others. -/
def freshNumber (b : CodeBook) (s i : Nat) : Nat := s * b.stride + i

theorem freshNumber_div (hi : i < b.stride) : b.freshNumber s i / b.stride = s := by
  have hpos : 0 < b.stride := by omega
  rw [freshNumber, Nat.mul_comm, Nat.mul_add_div hpos, Nat.div_eq_of_lt hi, Nat.add_zero]

theorem freshNumber_mod (hi : i < b.stride) : b.freshNumber s i % b.stride = i := by
  rw [freshNumber, Nat.mul_comm, Nat.mul_add_mod, Nat.mod_eq_of_lt hi]

/-- The numbers of a block are below those of the next. -/
theorem freshNumber_lt (hi : i < b.stride) : b.freshNumber s i < (s + 1) * b.stride := by
  rw [freshNumber, Nat.succ_mul]
  omega

theorem freshCode_eq_neg (b : CodeBook) (s i : Nat) :
    b.freshCode (.ofNat s) i = -Int64.ofNat (b.freshNumber s i) := by
  rw [freshNumber, Int64.ofNat_add, Int64.ofNat_mul]
  rfl

/-- **Within the range of codes, a fresh code is the negated number of its variable.** -/
theorem toInt_freshCode (h : b.freshNumber s i < 2 ^ 63) :
    (b.freshCode (.ofNat s) i).toInt = -(b.freshNumber s i : Int) := by
  rw [freshCode_eq_neg, Int64.toInt_neg_ofNat_of_le (Nat.le_of_lt h)]

theorem freshCode_lt_zero (hi : 1 ≤ i) (h : b.freshNumber s i < 2 ^ 63) :
    b.freshCode (.ofNat s) i < 0 := by
  have hpos : 1 ≤ b.freshNumber s i := Nat.le_trans hi (Nat.le_add_left i _)
  rw [Int64.lt_iff_toInt_lt, toInt_freshCode h, Int64.toInt_zero]
  omega

/-- Within the range of codes, step and index are determined by a fresh code. -/
theorem freshCode_inj (hi : i < b.stride) (hi' : i' < b.stride) (h : b.freshNumber s i < 2 ^ 63)
    (h' : b.freshNumber s' i' < 2 ^ 63)
    (heq : b.freshCode (.ofNat s) i = b.freshCode (.ofNat s') i') : s = s' ∧ i = i' := by
  have hnumber : b.freshNumber s i = b.freshNumber s' i' := by
    have := congrArg Int64.toInt heq
    rw [toInt_freshCode h, toInt_freshCode h'] at this
    omega
  constructor
  · rw [← freshNumber_div (s := s) hi, hnumber, freshNumber_div hi']
  · rw [← freshNumber_mod (s := s) hi, hnumber, freshNumber_mod hi']

theorem symbol?_freshCode (hi : 1 ≤ i) (hi' : i < b.stride) (h : b.freshNumber s i < 2 ^ 63) :
    b.symbol? (b.freshCode (.ofNat s) i) = some (freshName s i) := by
  have hnumber : (-b.freshCode (.ofNat s) i).toNatClampNeg = b.freshNumber s i := by
    rw [freshCode_eq_neg, Int64.neg_neg, Int64.toNatClampNeg_ofNat_of_lt h]
  have hne : i ≠ 0 := by omega
  rw [symbol?, if_pos (freshCode_lt_zero hi h), hnumber]
  simp only [freshNumber_mod hi', freshNumber_div hi', if_neg hne]

/-! ## Codes of symbols -/

variable {t : Theory} {sym : String} {c : Int64}

theorem exists_of_mem_numbering (h : (sym, c) ∈ numbering t) :
    ∃ n, n ≤ t.symbols.size ∧ c = Int64.ofNat n := by
  obtain ⟨⟨sym', n⟩, hmem, heq⟩ := List.mem_map.mp h
  cases heq
  have hlt := (List.mem_zipIdx hmem).2.1
  rw [Std.ExtTreeSet.length_toList] at hlt
  exact ⟨n, by omega, rfl⟩

theorem map_fst_numbering (t : Theory) : (numbering t).map Prod.fst = t.symbols.toList := by
  unfold numbering
  rw [List.map_map]
  exact List.zipIdx_map_fst 1 _

/-- Every symbol has one number. -/
theorem numbering_distinct (t : Theory) :
    (numbering t).Pairwise fun a a' => ¬ compare a.1 a'.1 = .eq := by
  have hdistinct := Std.ExtTreeSet.distinct_toList (t := t.symbols)
  rw [← map_fst_numbering] at hdistinct
  exact List.pairwise_map.mp hdistinct

/-- A code on record is that of the numbering. -/
theorem IsOf.mem_numbering (hb : b.IsOf t) (h : b.theoryCode? sym = some c) :
    (sym, c) ∈ numbering t := by
  unfold theoryCode? at h
  rw [hb.codes_eq] at h
  have hmem : sym ∈ (ofTheory t).codes := by
    by_contra hnot
    rw [Std.ExtTreeMap.getElem?_eq_none hnot] at h
    exact absurd h nofun
  have hmem := Std.ExtTreeMap.mem_ofList.mp hmem
  rw [List.contains_iff_mem] at hmem
  obtain ⟨⟨sym', c'⟩, hc', rfl⟩ := List.mem_map.mp hmem
  have hget := Std.ExtTreeMap.getElem?_ofList_of_mem Std.ReflCmp.compare_self
    (numbering_distinct t) hc'
  have heq : some c' = some c := hget.symm.trans h
  cases heq
  exact hc'

/-- The codes of symbols outside a theory start at `2 ^ 40`. -/
theorem le_fallbackCode (sym : String) : (fallbackBase : Int) ≤ (fallbackCode sym).toInt := by
  unfold fallbackCode
  generalize (Digest.ofPayload .fallbackCode (Bytes.utf8 sym)).leadingWord = w
  have hlt : fallbackBase + w % fallbackBase < 2 ^ 63 := by
    unfold fallbackBase
    omega
  rw [Int64.toInt_ofNat_of_lt hlt]
  omega

theorem fallbackCode_nonneg (sym : String) : 0 ≤ fallbackCode sym := by
  have hle := le_fallbackCode sym
  rw [Int64.le_iff_toInt_le, Int64.toInt_zero]
  omega

/-- As long as the numbering stays within the range of codes, no symbol has a negative code. -/
theorem IsOf.code_nonneg (hb : b.IsOf t) (hsize : t.symbols.size < 2 ^ 63) (sym : String) :
    0 ≤ b.code sym := by
  unfold code
  cases hc : b.theoryCode? sym with
  | none => exact fallbackCode_nonneg sym
  | some c =>
    obtain ⟨n, hn, rfl⟩ := exists_of_mem_numbering (hb.mem_numbering hc)
    have hlt : n < 2 ^ 63 := by omega
    rw [Option.getD_some, Int64.le_iff_toInt_le, Int64.toInt_ofNat_of_lt hlt, Int64.toInt_zero]
    omega

end CodeBook

/-! ## Indices -/

/-- The index, from one, of a variable that a rule introduces. -/
def Rule.freshIndex? (r : Rule) (dir : Direction) (name : String) : Option Nat :=
  ((r.produced dir).varsOutside (r.matched dir)).idxOf? name |>.map (· + 1)

theorem Engine.le_foldl_max_of_mem {ns : List Nat} {m : Nat} (hm : m ∈ ns) (n : Nat) :
    m ≤ ns.foldl max n := by
  induction ns generalizing n with
  | nil => exact absurd hm nofun
  | cons k ns ih =>
    rcases List.mem_cons.mp hm with rfl | hm
    · exact Nat.le_trans (Nat.le_max_right n m) (le_foldl_max ns (max n m))
    · exact ih hm (max n k)

/-- The stride is above the number of variables that any rule introduces. -/
theorem CodeBook.introducedCount_lt {rules : List Rule} {r : Rule} (hr : r ∈ rules)
    (dir : Direction) : introducedCount r dir < strideOf rules := by
  have hmem := List.mem_map_of_mem
    (f := fun r => max (introducedCount r .forward) (introducedCount r .reverse)) hr
  have hle := Engine.le_foldl_max_of_mem hmem 0
  unfold strideOf
  cases dir <;> omega

theorem CodeBook.freshIndex?_lt {rules : List Rule} {r : Rule} (hr : r ∈ rules) {dir : Direction}
    {name : String} {i : Nat} (h : r.freshIndex? dir name = some i) :
    1 ≤ i ∧ i < strideOf rules := by
  obtain ⟨j, hj, rfl⟩ := Option.map_eq_some_iff.mp h
  obtain ⟨hlt, -⟩ := List.idxOf?_eq_some_iff.mp hj
  have hcount := introducedCount_lt hr dir
  unfold introducedCount at hcount
  omega

/-- An introduced variable is tagged with its fresh code. -/
theorem CodeBook.freshTag_of_freshIndex? {b : CodeBook} {r : Rule} {dir : Direction} {name : String}
    {i : Nat} (h : r.freshIndex? dir name = some i) (step : Int64) :
    b.freshTag ((r.produced dir).varsOutside (r.matched dir)) step .var name =
      b.freshCode step i := by
  obtain ⟨j, hj, rfl⟩ := Option.map_eq_some_iff.mp h
  rw [freshTag, if_pos rfl, hj]

/-- Any other variable is tagged with the code of its name. -/
theorem CodeBook.freshTag_of_freshIndex?_eq_none {b : CodeBook} {r : Rule} {dir : Direction}
    {name : String} (h : r.freshIndex? dir name = none) (step : Int64) :
    b.freshTag ((r.produced dir).varsOutside (r.matched dir)) step .var name = b.code name := by
  rw [freshTag, if_pos rfl, Option.map_eq_none_iff.mp h]

/-! ## What a step brings in -/

namespace Engine

variable {c : Int64}

/-- The codes of a constructed tree are those of the source tree and the tags of new nodes. -/
theorem occurs_constructed {width : Nat} {tag : Kind → String → Int64} {source? : Option Expr}
    {x : Tree} {target : Expr} (h : (target.constructed width tag source? x).Occurs c) :
    x.Occurs c ∨ ∃ k s, c = tag k s := by
  induction target with
  | node k s as ih =>
    rw [Expr.constructed] at h
    split at h
    · exact .inl (Tree.occurs_getAt h)
    · rw [Expr.constructedAll_eq_map] at h
      rcases Tree.occurs_build h with hc | ⟨y, hy, hc⟩
      · exact .inr ⟨k, s, hc⟩
      · obtain ⟨a, ha, rfl⟩ := List.mem_map.mp hy
        exact ih a ha hc

/-- The other side of a rule has the codes of the tree, of symbols and of the variables that the
rule introduces. -/
theorem occurs_ruleResult {book : CodeBook} {width : Nat} {tag : RuleTag} {rule : Rule} {x : Tree}
    {step : Int64} (h : (ruleResult book width tag rule x step).Occurs c) :
    x.Occurs c ∨ (∃ sym, c = book.code sym) ∨
      ∃ name i, rule.freshIndex? tag.direction name = some i ∧ c = book.freshCode step i := by
  rcases occurs_constructed h with hx | ⟨k, s, rfl⟩
  · exact .inl hx
  · right
    unfold CodeBook.freshTag
    split
    · rename_i i hi
      have hk : k = .var := by
        by_contra hk
        rw [if_neg hk] at hi
        exact absurd hi nofun
      rw [if_pos hk] at hi
      refine .inr ⟨s, i + 1, ?_, rfl⟩
      rw [Rule.freshIndex?, hi]
      rfl
    · exact .inl ⟨s, rfl⟩

variable {e : Engine} {x y : Tree} {tag : RuleTag} {p : Path}

theorem Intact.occurs_applyRules (h : e.Intact) {s : Int64} (hc : (applyRules e.book e.bounds.width
      (taggedRules e.theory.rules e.bounds) x tag s).Occurs c) :
    x.Occurs c ∨ (∃ sym, c = e.book.code sym) ∨
      ∃ i, 1 ≤ i ∧ i < e.book.stride ∧ c = e.book.freshCode s i := by
  cases hr : e.rule? tag with
  | none =>
    rw [h.applyRules_eq_error hr] at hc
    exact nomatch hc
  | some rule =>
    rw [h.applyRules_eq hr] at hc
    split at hc
    · refine (occurs_ruleResult hc).imp_right (Or.imp_right ?_)
      rintro ⟨name, i, hi, hcode⟩
      have hbounds := CodeBook.freshIndex?_lt (List.mem_of_getElem? hr) hi
      rw [← h.book.stride_eq] at hbounds
      exact ⟨i, hbounds.1, hbounds.2, hcode⟩
    · exact nomatch hc

theorem occurs_withinPaths {b : Bounds} {value : Path → Tree}
    (h : (withinPaths b p value).Occurs c) : (value p).Occurs c := by
  unfold withinPaths at h
  split at h
  · exact h
  · exact nomatch h

/-- **A step brings in zero, codes of symbols and codes of its own block only.** -/
theorem Compiled.occurs_rewrite (he : e.Compiled) {s : Int64}
    (h : e.rewrite x tag p s = .ok y) (hc : y.Occurs c) :
    x.Occurs c ∨ c = 0 ∨ (∃ sym, c = e.book.code sym) ∨
      ∃ i, 1 ≤ i ∧ i < e.book.stride ∧ c = e.book.freshCode s i := by
  rw [he.rewrite_eq] at h
  cases h
  unfold applyAt at hc
  split at hc
  · rcases Tree.occurs_rebuild (occurs_withinPaths hc) with h0 | hx | hrules
    · exact .inr (.inl h0)
    · exact .inl hx
    · refine (he.intact.occurs_applyRules hrules).imp (fun hx => ?_) .inr
      exact Tree.occurs_getAt (occurs_withinPaths hx)
  · exact nomatch hc

/-! ## Runs -/

/-- Rewriting from a tree with any rules at any paths, where the step counter counts the steps. -/
inductive Run (e : Engine) (x₀ : Tree) : Nat → Tree → Prop
  | start : Run e x₀ 0 x₀
  | step {n x tag p y} (run : Run e x₀ n x) (rewrite : e.rewrite x tag p (.ofNat n) = .ok y) :
      Run e x₀ (n + 1) y

variable {x₀ : Tree} {n : Nat}

/-- **The negative codes in a run are in the blocks of earlier steps.** -/
theorem Run.introduced (he : e.Compiled) (hsize : e.theory.symbols.size < 2 ^ 63)
    (hx₀ : ∀ c, x₀.Occurs c → 0 ≤ c) (run : e.Run x₀ n x) (hc : x.Occurs c) (hneg : c < 0) :
    ∃ s < n, e.book.Introduces s c := by
  induction run with
  | start => exact absurd hneg (Int64.not_lt.mpr (hx₀ c hc))
  | @step n x tag p y _ rewrite ih =>
    rcases he.occurs_rewrite rewrite hc with hx | rfl | ⟨sym, rfl⟩ | ⟨i, hi, hlt, hcode⟩
    · obtain ⟨s, hs, hblock⟩ := ih hx
      exact ⟨s, Nat.lt_succ_of_lt hs, hblock⟩
    · exact absurd hneg Int64.lt_irrefl
    · have hnonneg := he.intact.book.code_nonneg hsize sym
      exact absurd hneg (Int64.not_lt.mpr hnonneg)
    · exact ⟨n, Nat.lt_succ_self n, i, hi, hlt, hcode⟩

/-- Within the range of codes, no code of the next block occurs in a run so far. -/
theorem Run.unused (he : e.Compiled) (hsize : e.theory.symbols.size < 2 ^ 63)
    (hx₀ : ∀ c, x₀.Occurs c → 0 ≤ c) (run : e.Run x₀ n x)
    (hrange : (n + 1) * e.book.stride < 2 ^ 63) (hc : e.book.Introduces n c) : ¬ x.Occurs c := by
  intro hoccurs
  obtain ⟨i, hi, hlt, rfl⟩ := hc
  have hnumber : e.book.freshNumber n i < 2 ^ 63 := Nat.lt_trans (CodeBook.freshNumber_lt hlt) hrange
  have hneg := CodeBook.freshCode_lt_zero hi hnumber
  obtain ⟨s, hs, i', hi', hlt', heq⟩ := run.introduced he hsize hx₀ hoccurs hneg
  have hmono : (s + 1) * e.book.stride ≤ (n + 1) * e.book.stride :=
    Nat.mul_le_mul_right _ (by omega)
  have hnumber' : e.book.freshNumber s i' < 2 ^ 63 :=
    Nat.lt_trans (Nat.lt_of_lt_of_le (CodeBook.freshNumber_lt hlt') hmono) hrange
  have hstep := (CodeBook.freshCode_inj hlt hlt' hnumber hnumber' heq).1
  omega

/-- The variables that rewriting introduces are fresh, and are told from all others. -/
structure KeepsFresh (e : Engine) : Prop where
  /-- The negative codes in a run are in the blocks of earlier steps. -/
  introduced : ∀ {x₀ n x c}, (∀ c, x₀.Occurs c → 0 ≤ c) → e.Run x₀ n x →
    (n + 1) * e.book.stride < 2 ^ 63 → x.Occurs c → c < 0 → ∃ s < n, e.book.Introduces s c
  /-- The codes of the next block do not occur. -/
  unused : ∀ {x₀ n x c}, (∀ c, x₀.Occurs c → 0 ≤ c) → e.Run x₀ n x →
    (n + 1) * e.book.stride < 2 ^ 63 → e.book.Introduces n c → ¬ x.Occurs c
  /-- No two variables have one code. -/
  injective : ∀ {s s' i i'}, 1 ≤ i → i < e.book.stride → 1 ≤ i' → i' < e.book.stride →
    s * e.book.stride + i < 2 ^ 63 → s' * e.book.stride + i' < 2 ^ 63 →
    e.book.freshCode (.ofNat s) i = e.book.freshCode (.ofNat s') i' → s = s' ∧ i = i'
  /-- The variables of every rule, in both directions, have a place in the block. -/
  index : ∀ {rule dir name i}, rule ∈ e.theory.rules → rule.freshIndex? dir name = some i →
    1 ≤ i ∧ i < e.book.stride
  /-- Their tags are made such that they evaluate to the codes at these places. -/
  tag : ∀ {rule dir name i}, rule ∈ e.theory.rules → rule.freshIndex? dir name = some i →
    ∀ {S x stepTerm step}, Term.Means S stepTerm (.int step) →
      Build.Yields ((Construction.start e.book e.bounds.width (rule.produced dir)
        (some ⟨rule.matched dir, x⟩) stepTerm).tag .var name)
        (Term.Means S · (.int (e.book.freshCode step i)))
  /-- No symbol has the code of a variable. -/
  symbol : ∀ {s i}, 1 ≤ i → i < e.book.stride → s * e.book.stride + i < 2 ^ 63 →
    ∀ sym, e.book.freshCode (.ofNat s) i ≠ e.book.code sym ∧
      e.book.freshCode (.ofNat s) i ≠ CodeBook.fallbackCode sym
  /-- The code of a variable is read as its step and its index. -/
  name : ∀ {s i}, 1 ≤ i → i < e.book.stride → s * e.book.stride + i < 2 ^ 63 →
    e.book.symbol? (e.book.freshCode (.ofNat s) i) = some s!"_v{s}_{i}"

/-- The tag of a variable that a rule introduces means its code. -/
theorem yields_tag_fresh {book : CodeBook} {width : Nat} {rule : Rule} {dir : Direction}
    {name : String} {i : Nat} (hi : rule.freshIndex? dir name = some i) {S : Setting}
    {tree stepTerm : Term} {step : Int64} (hstep : Term.Means S stepTerm (.int step)) :
    Build.Yields ((Construction.start book width (rule.produced dir)
      (some ⟨rule.matched dir, tree⟩) stepTerm).tag .var name)
      (Term.Means S · (.int (book.freshCode step i))) := by
  rw [← CodeBook.freshTag_of_freshIndex? hi step]
  exact Construction.yields_tag (Construction.start book width (rule.produced dir)
    (some ⟨rule.matched dir, tree⟩) stepTerm) hstep .var name

/-- **An engine of the library introduces fresh variables only**, if its symbols can be numbered. -/
theorem Compiled.keepsFresh (he : e.Compiled) (hsize : e.theory.symbols.size < 2 ^ 63) :
    e.KeepsFresh where
  introduced hx₀ run _ hc hneg := run.introduced he hsize hx₀ hc hneg
  unused hx₀ run hrange hc := run.unused he hsize hx₀ hrange hc
  injective _ hlt _ hlt' hnumber hnumber' heq :=
    CodeBook.freshCode_inj hlt hlt' hnumber hnumber' heq
  index hr hi := he.intact.book.stride_eq ▸ CodeBook.freshIndex?_lt hr hi
  tag _ hi _ _ _ _ hstep := yields_tag_fresh hi hstep
  symbol {s i} hi _ hnumber sym := by
    have hneg := CodeBook.freshCode_lt_zero hi hnumber
    refine ⟨fun heq => ?_, fun heq => ?_⟩
    · rw [heq] at hneg
      exact absurd hneg (Int64.not_lt.mpr (he.intact.book.code_nonneg hsize sym))
    · rw [heq] at hneg
      exact absurd hneg (Int64.not_lt.mpr (CodeBook.fallbackCode_nonneg sym))
  name hi hlt hnumber := CodeBook.symbol?_freshCode hi hlt hnumber

/-- Two steps of the rule of pairs, in reverse, introduce two variables. The next step has a code
for a third. -/
theorem Compiled.keepsFresh_pair : ∃ (e : Engine) (x : Tree), e.Compiled ∧
    x = Pairs.pairTree (Pairs.pairTree (Pairs.varTree 3) (Pairs.varTree (-3))) (Pairs.varTree (-1)) ∧
    e.Run (Pairs.varTree 3) 2 x ∧ ¬ x.Occurs (e.book.freshCode 2 1) := by
  obtain ⟨e, he, hsize, hstride, hfirst, hsecond⟩ := Pairs.exists_engine (P := fun e =>
    e.theory.symbols.size < 2 ^ 63 ∧ e.book.stride = 2 ∧
      applyAt e.theory.rules e.book e.bounds (Pairs.varTree 3) ⟨0, .reverse⟩ [] (.ofNat 0) =
        Pairs.pairTree (Pairs.varTree 3) (Pairs.varTree (-1)) ∧
      applyAt e.theory.rules e.book e.bounds (Pairs.pairTree (Pairs.varTree 3) (Pairs.varTree (-1)))
        ⟨0, .reverse⟩ [1] (.ofNat 1) =
        Pairs.pairTree (Pairs.pairTree (Pairs.varTree 3) (Pairs.varTree (-3))) (Pairs.varTree (-1)))
    (by decide +kernel)
  have hstart : ∀ c, (Pairs.varTree 3).Occurs c → 0 ≤ c := by
    intro c hc
    rcases Pairs.occurs_varTree hc with rfl | rfl <;> decide
  have hrun := (Run.start.step ((he.rewrite_eq _ _ _ _).trans (congrArg _ hfirst))).step
    ((he.rewrite_eq _ _ _ _).trans (congrArg _ hsecond))
  refine ⟨e, _, he, rfl, hrun, (he.keepsFresh hsize).unused hstart hrun ?_ ?_⟩
  · rw [hstride]
    decide
  · exact ⟨1, Nat.le_refl 1, by omega, rfl⟩

end Engine

end SortedRewriting
