import SortedRewriting.Proofs.Engine.RoundTrip
import SortedRewriting.Proofs.Engine.Sorting

/-!
# Names tell the states of a run apart

A symbol on record is read from its own code, and an introduced variable has a name made of its
step and index. As long as no symbol on record is called like an introduced variable, a name
belongs to one code, and what a state of a run decodes to belongs to that state only.

* `CodeBook.freshName_inj`: the name of an introduced variable tells its step and index.
* `CodeBook.symbol?_inj`: no two codes have the same name.
* `CodeBook.decode_inj`: no two canonical trees decode to the same term.
* `Engine.Run.canonical`: the states of a run from an encoding are canonical, or errors.
* **`Engine.Compiled.decode_run_inj`**: so no two states of runs from a term decode to the same
  term.
* `Engine.Compiled.decode_run_clash`: two states that do, where the start has a variable with the
  name of an introduced one.
-/

namespace SortedRewriting

namespace CodeBook

variable {b : CodeBook} {width : Nat} {c c' : Int64} {sym : String} {s s' i i' : Nat}
  {x y : Tree} {e : Expr}

/-! ## Names of introduced variables -/

theorem toList_freshName (s i : Nat) :
    (freshName s i).toList = '_' :: 'v' :: (s.repr.toList ++ '_' :: i.repr.toList) := by
  have hname : freshName s i = "_v" ++ s.repr ++ "_" ++ i.repr := rfl
  rw [hname]
  simp [String.toList_append]

theorem head?_freshName (s i : Nat) : (freshName s i).toList.head? = some '_' := by
  rw [toList_freshName]
  rfl

/-- The digits of a number end where something else stands. -/
theorem takeWhile_repr (n : Nat) (l : List Char) :
    (n.repr.toList ++ '_' :: l).takeWhile Char.isDigit = n.repr.toList := by
  rw [List.takeWhile_append_of_pos, List.takeWhile_cons_of_neg (by decide), List.append_nil]
  intro d hd
  rw [Nat.toList_repr] at hd
  exact Nat.isDigit_of_mem_toDigits (by decide) (Nat.le_refl 10) hd

/-- **The name of an introduced variable tells its step and index.** -/
theorem freshName_inj (h : freshName s i = freshName s' i') : s = s' ∧ i = i' := by
  have hlist := congrArg String.toList h
  rw [toList_freshName, toList_freshName] at hlist
  have hrest := (List.cons.inj (List.cons.inj hlist).2).2
  have hs : s.repr.toList = s'.repr.toList := by
    rw [← takeWhile_repr s i.repr.toList, hrest, takeWhile_repr]
  rw [hs] at hrest
  have hi := (List.cons.inj (List.append_cancel_left hrest)).2
  exact ⟨Nat.repr_injective (String.toList_injective hs),
    Nat.repr_injective (String.toList_injective hi)⟩

/-! ## Names of codes -/

/-- No symbol on record is called like an introduced variable. -/
def ReservesNames (b : CodeBook) : Prop :=
  ∀ (c : Int64) (n i : Nat), 1 ≤ i → i < b.stride → b.names[c]? ≠ some (freshName n i)

/-- The least code has no name, since its negation is no positive number. -/
theorem symbol?_minValue (b : CodeBook) : b.symbol? Int64.minValue = none := by
  have hnumber : (-Int64.minValue).toNatClampNeg = 0 := by decide
  rw [symbol?, if_pos (by decide), hnumber]
  simp only [Nat.zero_mod, if_true]

/-- A code whose negation has a positive number is the negated number. -/
theorem toInt_of_toNatClampNeg_neg {n : Nat} (h : (-c).toNatClampNeg = n) (hn : 0 < n) :
    c.toInt = -(n : Int) := by
  have hneg : (-c).toInt = n := by
    rw [← Int64.toNat_toInt] at h
    omega
  have hlt := Int64.toInt_lt (-c)
  rw [hneg] at hlt
  rw [← Int64.neg_neg (a := c), Int64.toInt_neg, hneg]
  exact Int.bmod_eq_of_le (by omega) (by omega)

/-- A negative code that has a name is that of an introduced variable. -/
theorem symbol?_of_neg (hstride : 0 < b.stride) (hc : c < 0) (h : b.symbol? c = some sym) :
    ∃ n i, 1 ≤ i ∧ i < b.stride ∧ sym = freshName n i ∧ c.toInt = -(b.freshNumber n i : Int) := by
  rw [symbol?, if_pos hc] at h
  simp only at h
  generalize hnumber : (-c).toNatClampNeg = n at h
  split at h
  · cases h
  · rename_i hmod
    have hpos : 0 < n := Nat.pos_of_ne_zero fun hzero => hmod (by rw [hzero, Nat.zero_mod])
    refine ⟨n / b.stride, n % b.stride, by omega, Nat.mod_lt n hstride, (Option.some.inj h).symm, ?_⟩
    rw [freshNumber, Nat.mul_comm, Nat.div_add_mod]
    exact toInt_of_toNatClampNeg_neg hnumber hpos

/-- **No two codes have the same name.** -/
theorem symbol?_inj (hb : b.Faithful) (hstride : 0 < b.stride) (hnames : b.ReservesNames)
    (h : b.symbol? c = some sym) (h' : b.symbol? c' = some sym) : c = c' := by
  have hrecord : ∀ {c : Int64}, ¬ c < 0 → b.symbol? c = some sym →
      b.names[c]? = some sym ∧ b.code sym = c := fun hc hsym =>
    ⟨by rwa [symbol?, if_neg hc] at hsym, hb.code_of_symbol? (Int64.not_lt.mp hc) hsym⟩
  by_cases hc : c < 0
  · obtain ⟨n, i, hi, hi', rfl, hnumber⟩ := symbol?_of_neg hstride hc h
    by_cases hc' : c' < 0
    · obtain ⟨n', i', -, -, hname, hnumber'⟩ := symbol?_of_neg hstride hc' h'
      obtain ⟨rfl, rfl⟩ := freshName_inj hname
      exact Int64.toInt_inj.mp (hnumber.trans hnumber'.symm)
    · exact absurd (hrecord hc' h').1 (hnames c' n i hi hi')
  · by_cases hc' : c' < 0
    · obtain ⟨n', i', hi, hi', rfl, -⟩ := symbol?_of_neg hstride hc' h'
      exact absurd (hrecord hc h).1 (hnames c n' i' hi hi')
    · rw [← (hrecord hc h).2, (hrecord hc' h').2]

/-- **No two canonical trees decode to the same term**, if no two codes have the same name. -/
theorem decode_inj
    (hinj : ∀ c c' sym, b.symbol? c = some sym → b.symbol? c' = some sym → c = c')
    (hx : x.Canonical width) (hy : y.Canonical width) (h : b.decode x = .ok e)
    (h' : b.decode y = .ok e) : x = y := by
  induction hx generalizing y e with
  | @node c cs unused slots children ih =>
    cases hy with
    | @node c' cs' unused' slots' children' =>
      obtain ⟨sym, as, hsym, hall, -, rfl⟩ :=
        (decode_slots_eq_ok_iff (fun c hc => (children c hc).isNode) unused).mp h
      obtain ⟨sym', as', hsym', hall', -, heq⟩ :=
        (decode_slots_eq_ok_iff (fun c hc => (children' c hc).isNode) unused').mp h'
      obtain ⟨-, rfl, rfl⟩ := Expr.node.inj heq
      have hcanonical : List.Forall₂ (fun y a => y.Canonical width ∧ b.decode y = .ok a) cs' as :=
        forall₂_imp_mem hall' fun y hy _ _ hya => ⟨children' y hy, hya⟩
      have hcs : cs = cs' := List.forall₂_eq_eq_eq ▸
        forall₂_trans_mem hall hcanonical.flip fun x hx _ _ y hxa hya => ih x hx hya.1 hxa hya.2
      subst hcs
      have hunused : unused = unused' := by omega
      rw [hinj c c' _ hsym hsym', hunused]

/-! ## Names on record -/

variable {theory : Theory} {es : List Expr}

/-- A name on record is a symbol of the theory or of one of the expressions. -/
theorem mem_symbols_of_recorded (h : (recorded theory es).names[c]? = some sym) :
    sym ∈ theory.symbols ∨ ∃ e ∈ es, sym ∈ e.symbols := by
  rcases (records_recorded theory es).added c sym h with hname | ⟨hsym, -⟩
  · left
    have hmem := List.mem_map_of_mem (f := Prod.fst) (mem_numbering_of_name hname)
    rw [map_fst_numbering] at hmem
    exact Std.ExtTreeSet.mem_toList.mp hmem
  · obtain ⟨e, he, hsym⟩ := List.mem_flatMap.mp hsym
    exact .inr ⟨e, he, Std.ExtTreeSet.mem_toList.mp hsym⟩

theorem reservesNames_recorded
    (hnames : ∀ n i, 1 ≤ i → i < strideOf theory.rules →
      freshName n i ∉ theory.symbols ∧ ∀ e ∈ es, freshName n i ∉ e.symbols) :
    (recorded theory es).ReservesNames := by
  intro c n i hi hi' hname
  rw [(isOf_recorded theory es).stride_eq] at hi'
  obtain ⟨htheory, hes⟩ := hnames n i hi hi'
  rcases mem_symbols_of_recorded hname with hsym | ⟨e, he, hsym⟩
  · exact htheory hsym
  · exact hes e he hsym

end CodeBook

namespace Engine

variable {e : Engine} {theory : Theory} {depth n m : Nat} {es : List Expr} {start t : Expr}
  {x₀ x y : Tree}

/-! ## Engines and their books -/

/-- A new engine has the symbols of its theory on record. -/
theorem book_of_compile (h : compile theory depth = .ok e) : e.book = .recorded e.theory [] := by
  obtain ⟨theory', -, h⟩ := bind_eq_ok_iff.mp h
  cases h
  rfl

theorem book_of_register (h : e.book = .recorded e.theory es) (t : Expr) :
    (e.register t).book = .recorded (e.register t).theory (es ++ [t]) := by
  rw [CodeBook.recorded, List.foldl_append]
  exact congrArg (CodeBook.register · t) h

/-! ## Runs -/

/-- An error is never left in a run. -/
theorem Run.canonical (he : e.Compiled) (hx₀ : x₀ = .error ∨ x₀.Canonical e.bounds.width)
    (run : e.Run x₀ n x) : x = .error ∨ x.Canonical e.bounds.width := by
  induction run with
  | start => exact hx₀
  | step _ rewrite ih =>
    rcases ih with rfl | hcanonical
    · rw [he.rewrite_error] at rewrite
      cases rewrite
      exact .inl rfl
    · exact he.rewrite_canonical hcanonical rewrite

/-- A state of a run from the encoding of a term is canonical, if it is no error. -/
theorem Run.canonical_of_treeOf (he : e.Compiled) (run : e.Run (e.treeOf start) n x)
    (hx : x ≠ .error) : x.Canonical e.bounds.width := by
  have hstart : e.treeOf start = .error ∨ (e.treeOf start).Canonical e.bounds.width := by
    by_cases herror : e.treeOf start = .error
    · exact .inl herror
    · exact .inr (canonical_encode herror)
  exact (run.canonical he hstart).resolve_left hx

/-- **What a state of a run decodes to belongs to that state only**, and a name to one code, as long
as no symbol of the theory or of a term on record is called like an introduced variable. -/
theorem Compiled.decode_run_inj (he : e.Compiled) (hbook : e.book = .recorded e.theory es)
    (hnames : ∀ n i, 1 ≤ i → i < e.book.stride → CodeBook.freshName n i ∉ e.theory.symbols ∧
      ∀ t ∈ es, CodeBook.freshName n i ∉ t.symbols)
    (run : e.Run (e.treeOf start) n x) (run' : e.Run (e.treeOf start) m y)
    (hx : x ≠ .error) (hy : y ≠ .error) :
    (∀ t, e.book.decode x = .ok t → e.book.decode y = .ok t → x = y) ∧
      ∀ c c' name, x.Occurs c ∨ y.Occurs c → x.Occurs c' ∨ y.Occurs c' →
        e.book.symbol? c = some name → e.book.symbol? c' = some name → c = c' := by
  have hstride : e.book.stride = CodeBook.strideOf e.theory.rules := he.intact.book.stride_eq
  have hinj : ∀ c c' name, e.book.symbol? c = some name → e.book.symbol? c' = some name →
      c = c' := by
    intro c c' name hc hc'
    refine CodeBook.symbol?_inj ?_ (hstride ▸ Nat.succ_pos _) ?_ hc hc'
    · rw [hbook]
      exact CodeBook.faithful_recorded e.theory es
    · rw [hbook]
      exact CodeBook.reservesNames_recorded (hstride ▸ hnames)
  exact ⟨fun t ht ht' => CodeBook.decode_inj hinj (run.canonical_of_treeOf he hx)
    (run'.canonical_of_treeOf he hy) ht ht', fun c c' name _ _ => hinj c c' name⟩

/-- A check of a new engine for pairs and of the same engine once a pair is registered. -/
theorem exists_registered_pair (name : String) {P : Engine → Prop} [DecidablePred P]
    (h : Pairs.satisfies (fun t => (Engine.compile t 1).toOption.any fun e =>
      P (e.register (Pairs.pair (Pairs.thingVar "x") (Pairs.thingVar name)))) = true) :
    ∃ e : Engine, e.Compiled ∧
      e.book = .recorded e.theory [Pairs.pair (Pairs.thingVar "x") (Pairs.thingVar name)] ∧ P e := by
  obtain ⟨t, made, h⟩ := Pairs.exists_theory h
  obtain ⟨e, hcompile, h⟩ := exists_ok_of_any h
  have hbook := book_of_register (book_of_compile hcompile)
    (Pairs.pair (Pairs.thingVar "x") (Pairs.thingVar name))
  exact ⟨_, .register (.compile made hcompile) _, hbook, of_decide_eq_true h⟩

/-- A pair goes to its first component and back to a pair with an introduced variable. As the trees
are different, so are the terms. -/
theorem Compiled.decode_run_inj_pair : ∃ (e : Engine) (t t' : Expr) (y : Tree), e.Compiled ∧
    e.Run (e.treeOf (Pairs.pair (Pairs.thingVar "x") (Pairs.thingVar "y"))) 2 y ∧
    e.book.decode (e.treeOf (Pairs.pair (Pairs.thingVar "x") (Pairs.thingVar "y"))) = .ok t ∧
    e.book.decode y = .ok t' ∧ t ≠ t' := by
  let start := Pairs.pair (Pairs.thingVar "x") (Pairs.thingVar "y")
  let y := Pairs.pairTree (Pairs.varTree 3) (Pairs.varTree (-3))
  obtain ⟨e, he, hbook, hheads, hforth, hback, hne, hx, hy, hdistinct⟩ :=
    exists_registered_pair "y" (P := fun e =>
      (∀ sym ∈ e.theory.symbols.toList ++ start.symbols.toList, sym.toList.head? ≠ some '_') ∧
      applyAt e.theory.rules e.book e.bounds (e.treeOf start) ⟨0, .forward⟩ [] (.ofNat 0) =
        Pairs.varTree 3 ∧
      applyAt e.theory.rules e.book e.bounds (Pairs.varTree 3) ⟨0, .reverse⟩ [] (.ofNat 1) = y ∧
      e.treeOf start ≠ .error ∧
      (e.book.decode (e.treeOf start)).toOption.any (fun _ => true) = true ∧
      (e.book.decode y).toOption.any (fun _ => true) = true ∧ e.treeOf start ≠ y)
    (by decide +kernel)
  have hnames : ∀ n i, 1 ≤ i → i < e.book.stride → CodeBook.freshName n i ∉ e.theory.symbols ∧
      ∀ t ∈ [start], CodeBook.freshName n i ∉ t.symbols := by
    intro n i _ _
    have hhead := CodeBook.head?_freshName n i
    refine ⟨fun hmem => ?_, fun t ht hmem => ?_⟩
    · exact hheads _ (List.mem_append_left _ (Std.ExtTreeSet.mem_toList.mpr hmem)) hhead
    · cases List.mem_singleton.mp ht
      exact hheads _ (List.mem_append_right _ (Std.ExtTreeSet.mem_toList.mpr hmem)) hhead
  have hrun := (Run.start.step ((he.rewrite_eq _ _ _ _).trans (congrArg _ hforth))).step
    ((he.rewrite_eq _ _ _ _).trans (congrArg _ hback))
  obtain ⟨t, ht, -⟩ := exists_ok_of_any hx
  obtain ⟨t', ht', -⟩ := exists_ok_of_any hy
  refine ⟨e, t, t', y, he, hrun, ht, ht', ?_⟩
  rintro rfl
  exact hdistinct ((he.decode_run_inj hbook hnames .start hrun hne nofun).1 t ht ht')

/-- **Two states of a run may decode to the same term.** The start is a pair with a variable that is
called like the variable introduced in the second step; declared sorts, and distinct codes, do not
help. -/
theorem Compiled.decode_run_clash : ∃ (e : Engine) (start t : Expr) (x y : Tree), e.Compiled ∧
    e.book = .recorded e.theory [start] ∧ e.theory.elaborateExpr start = .ok start ∧
    (∀ p ∈ start :: e.theory.patterns, e.theory.Declares p) ∧
    (∀ sym sym', sym ∈ e.theory.symbols ∨ sym ∈ start.symbols →
      sym' ∈ e.theory.symbols ∨ sym' ∈ start.symbols → e.book.code sym = e.book.code sym' →
        sym = sym') ∧
    e.Run (e.treeOf start) 0 x ∧ e.Run (e.treeOf start) 2 y ∧ x ≠ .error ∧ y ≠ .error ∧
    e.book.decode x = .ok t ∧ e.book.decode y = .ok t ∧ x ≠ y := by
  let start := Pairs.pair (Pairs.thingVar "x") (Pairs.thingVar "_v1_1")
  let y := Pairs.pairTree (Pairs.varTree 3) (Pairs.varTree (-3))
  obtain ⟨e, he, hbook, hstart, hdeclares, hcodes, hforth, hback, hne, hx, hy, hdistinct⟩ :=
    exists_registered_pair "_v1_1" (P := fun e => e.theory.elaborateExpr start = .ok start ∧
      (∀ p ∈ start :: e.theory.patterns, e.theory.Declares p) ∧
      (∀ sym ∈ e.theory.symbols.toList ++ start.symbols.toList,
        ∀ sym' ∈ e.theory.symbols.toList ++ start.symbols.toList,
          e.book.code sym = e.book.code sym' → sym = sym') ∧
      applyAt e.theory.rules e.book e.bounds (e.treeOf start) ⟨0, .forward⟩ [] (.ofNat 0) =
        Pairs.varTree 3 ∧
      applyAt e.theory.rules e.book e.bounds (Pairs.varTree 3) ⟨0, .reverse⟩ [] (.ofNat 1) = y ∧
      e.treeOf start ≠ .error ∧ e.book.decode (e.treeOf start) = .ok start ∧
      e.book.decode y = .ok start ∧ e.treeOf start ≠ y)
    (by decide +kernel)
  have hrun := (Run.start.step ((he.rewrite_eq _ _ _ _).trans (congrArg _ hforth))).step
    ((he.rewrite_eq _ _ _ _).trans (congrArg _ hback))
  refine ⟨e, start, start, _, y, he, hbook, hstart, hdeclares, fun sym sym' hsym hsym' => ?_, .start,
    hrun, hne, nofun, hx, hy, hdistinct⟩
  have hmem : ∀ sym, sym ∈ e.theory.symbols ∨ sym ∈ start.symbols →
      sym ∈ e.theory.symbols.toList ++ start.symbols.toList := fun sym h =>
    List.mem_append.mpr (h.imp Std.ExtTreeSet.mem_toList.mpr Std.ExtTreeSet.mem_toList.mpr)
  exact hcodes sym (hmem sym hsym) sym' (hmem sym' hsym')

end Engine

end SortedRewriting
