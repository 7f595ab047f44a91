import Mathlib.Algebra.Group.Int.Defs
import Mathlib.Data.List.Sort
import Mathlib.Data.String.Basic
import SortedRewriting.Proofs.Engine.RoundTrip
import SortedRewriting.Proofs.Lists

/-!
# The names that codes are read as

A code book starts with the symbols of its theory, numbered from one, and takes the symbols of
expressions one after the other. A name that has arrived keeps its code, and what arrives later
under the same code is dropped. So the names are a partial inverse of the codes, after any sequence
of expressions.

* `CodeBook.names_registerSymbol`: one symbol arrives.
* **`CodeBook.names_foldl`**: any number of symbols arrive. A code without a name takes the first
  symbol that has this code.
* `CodeBook.theoryCode?_eq_some_iff`, `CodeBook.toInt_fallbackCode_lt`: the codes of the theory and
  those of other symbols do not meet.
* **`CodeBook.recorded_inverse`**: what holds of all code books of theories with fewer than `2 ^ 40`
  symbols.
-/

namespace SortedRewriting.CodeBook

variable {b : CodeBook} {theory : Theory} {es : List Expr} {sym : String} {c : Int64}

/-! ## Symbols that arrive -/

/-- The symbol takes its code if the theory does not mention it. -/
def Takes (b : CodeBook) (c : Int64) (sym : String) : Bool :=
  decide (sym ∉ b.codes ∧ fallbackCode sym = c)

/-- **One symbol arrives**: a code without a name takes it, if it is the code of the symbol. -/
theorem names_registerSymbol (b : CodeBook) (sym : String) (c : Int64) :
    (b.registerSymbol sym).names[c]? = b.names[c]?.or (if b.Takes c sym then some sym else none) := by
  unfold registerSymbol
  by_cases hsym : sym ∈ b.codes
  · rw [if_pos (Std.ExtTreeMap.contains_iff_mem.mpr hsym), if_neg (by simp [Takes, hsym]),
      Option.or_none]
  · rw [if_neg (mt Std.ExtTreeMap.contains_iff_mem.mp hsym), Std.ExtTreeMap.getElem?_insertIfNew]
    by_cases hcode : fallbackCode sym = c
    · subst hcode
      have htakes : b.Takes (fallbackCode sym) sym = true := by simp [Takes, hsym]
      rw [htakes]
      by_cases hold : fallbackCode sym ∈ b.names
      · obtain ⟨name, hname⟩ :=
          Option.isSome_iff_exists.mp (Std.ExtTreeMap.isSome_getElem?_iff_mem.mpr hold)
        rw [if_neg fun h => h.2 hold, hname, Option.some_or]
      · rw [if_pos ⟨Std.ReflCmp.compare_self, hold⟩, Std.ExtTreeMap.getElem?_eq_none hold,
          Option.none_or, if_pos rfl]
    · rw [if_neg fun h => hcode (Std.LawfulEqCmp.compare_eq_iff_eq.mp h.1),
        if_neg (by simp [Takes, hcode]), Option.or_none]

/-- **Symbols arrive one after the other**: a code without a name takes the first of them that has
this code. -/
theorem names_foldl (syms : List String) (b : CodeBook) (c : Int64) :
    (syms.foldl registerSymbol b).names[c]? = b.names[c]?.or (syms.find? (b.Takes c)) := by
  induction syms generalizing b with
  | nil => rw [List.foldl_nil, List.find?_nil, Option.or_none]
  | cons sym syms ih =>
    have hcodes : (b.registerSymbol sym).codes = b.codes := (records_registerSymbol b sym).codes
    have htakes : (b.registerSymbol sym).Takes c = b.Takes c := by
      funext sym'
      rw [Takes, Takes, hcodes]
    rw [List.foldl_cons, ih, names_registerSymbol, htakes, Option.or_assoc, List.find?_cons]
    cases b.Takes c sym <;> simp

/-- The symbols of expressions in the order in which they arrive: one expression after the other,
and the symbols of an expression in their own order. -/
def arrivals (es : List Expr) : List String := es.flatMap (·.symbols.toList)

theorem mem_arrivals_iff : sym ∈ arrivals es ↔ ∃ e ∈ es, sym ∈ e.symbols := by
  simp only [arrivals, List.mem_flatMap, Std.ExtTreeSet.mem_toList]

theorem names_recorded (theory : Theory) (es : List Expr) (c : Int64) :
    (recorded theory es).names[c]? =
      (ofTheory theory).names[c]?.or ((arrivals es).find? ((ofTheory theory).Takes c)) := by
  rw [← names_foldl, arrivals, List.foldl_flatMap]
  rfl

theorem recorded_append (theory : Theory) (es es' : List Expr) :
    recorded theory (es ++ es') = es'.foldl register (recorded theory es) := List.foldl_append

/-! ## The numbers of a theory -/

theorem getElem?_numbering (theory : Theory) (i : Nat) :
    (numbering theory)[i]? = theory.symbols.toList[i]?.map (·, Int64.ofNat (i + 1)) := by
  rw [numbering, List.getElem?_map, List.getElem?_zipIdx, Option.map_map, Nat.add_comm]
  rfl

/-- The code of a symbol is its place in the order of symbols, counted from one. -/
theorem theoryCode?_eq_some_iff : (recorded theory es).theoryCode? sym = some c ↔
    ∃ i, theory.symbols.toList[i]? = some sym ∧ c = Int64.ofNat (i + 1) := by
  rw [theoryCode?, (isOf_recorded theory es).codes_eq, ← mem_numbering_iff, List.mem_iff_getElem?]
  simp only [getElem?_numbering, Option.map_eq_some_iff, Prod.mk.injEq]
  constructor
  · rintro ⟨i, sym', hsym, rfl, rfl⟩
    exact ⟨i, hsym, rfl⟩
  · rintro ⟨i, hsym, rfl⟩
    exact ⟨i, sym, hsym, rfl, rfl⟩

theorem exists_place (es : List Expr) (h : sym ∈ theory.symbols) :
    ∃ i, theory.symbols.toList[i]? = some sym ∧
      (recorded theory es).code sym = Int64.ofNat (i + 1) := by
  have hof := isOf_recorded theory es
  have hcode : (recorded theory es).theoryCode? sym = some ((recorded theory es).code sym) := by
    rw [theoryCode?, hof.codes_eq]
    exact mem_numbering_iff.mp (hof.mem_numbering_code h)
  exact theoryCode?_eq_some_iff.mp hcode

/-- A place in the list of symbols is a number of a code. -/
theorem toInt_place (hsize : theory.symbols.size < 2 ^ 40) {i : Nat}
    (h : theory.symbols.toList[i]? = some sym) :
    i < theory.symbols.size ∧ (Int64.ofNat (i + 1)).toInt = i + 1 := by
  have hi := (List.getElem?_eq_some_iff.mp h).1
  rw [Std.ExtTreeSet.length_toList] at hi
  exact ⟨hi, Int64.toInt_ofNat_of_lt (by omega)⟩

/-- The codes of a theory are the numbers from one on. -/
theorem exists_theoryCode?_iff (hsize : theory.symbols.size < 2 ^ 40) :
    (∃ sym, (recorded theory es).theoryCode? sym = some c) ↔
      1 ≤ c.toInt ∧ c.toInt ≤ theory.symbols.size := by
  constructor
  · rintro ⟨sym, h⟩
    obtain ⟨i, hi, rfl⟩ := theoryCode?_eq_some_iff.mp h
    obtain ⟨hlt, hcode⟩ := toInt_place hsize hi
    omega
  · rintro ⟨hone, hle⟩
    obtain ⟨i, hi⟩ : ∃ i : Nat, c.toInt = i + 1 := ⟨(c.toInt - 1).toNat, by omega⟩
    have hlt : i < theory.symbols.toList.length := by
      rw [Std.ExtTreeSet.length_toList]
      omega
    have hplace := List.getElem?_eq_getElem hlt
    refine ⟨_, theoryCode?_eq_some_iff.mpr ⟨i, hplace, Int64.toInt_inj.mp ?_⟩⟩
    rw [hi, (toInt_place hsize hplace).2]

theorem exists_theoryCode?_iff_mem :
    (∃ c, (recorded theory es).theoryCode? sym = some c) ↔ sym ∈ theory.symbols := by
  rw [← (isOf_recorded theory es).mem_codes_iff, ← Std.ExtTreeMap.isSome_getElem?_iff_mem,
    Option.isSome_iff_exists]
  rfl

/-- Symbols are listed in increasing order. -/
theorem sortedLT_symbols (theory : Theory) : theory.symbols.toList.SortedLT :=
  ((Std.ExtTreeSet.ordered_toList (t := theory.symbols)).imp compare_lt_iff_lt.mp).sortedLT

/-- The codes of a theory go up with its symbols. -/
theorem code_lt_code_iff (hsize : theory.symbols.size < 2 ^ 40) {sym' : String}
    (h : sym ∈ theory.symbols) (h' : sym' ∈ theory.symbols) :
    (recorded theory es).code sym < (recorded theory es).code sym' ↔ sym < sym' := by
  obtain ⟨i, hi, hcode⟩ := exists_place es h
  obtain ⟨j, hj, hcode'⟩ := exists_place es h'
  rw [hcode, hcode', Int64.lt_iff_toInt_lt, (toInt_place hsize hi).2, (toInt_place hsize hj).2]
  obtain ⟨hilt, rfl⟩ := List.getElem?_eq_some_iff.mp hi
  obtain ⟨hjlt, rfl⟩ := List.getElem?_eq_some_iff.mp hj
  rw [(sortedLT_symbols theory).getElem_lt_getElem_iff]
  omega

/-! ## Other codes -/

/-- The codes of symbols outside a theory end before `2 ^ 41`. -/
theorem toInt_fallbackCode_lt (sym : String) : (fallbackCode sym).toInt < 2 ^ 41 := by
  unfold fallbackCode
  generalize (Digest.ofPayload .fallbackCode (Bytes.utf8 sym)).leadingWord = w
  have hlt : fallbackBase + w % fallbackBase < 2 ^ 41 := by
    unfold fallbackBase
    omega
  rw [Int64.toInt_ofNat_of_lt (by omega)]
  exact_mod_cast hlt

/-- No symbol of the theory has the code of another symbol. -/
theorem names_ofTheory_fallbackCode (hsize : theory.symbols.size < 2 ^ 40) (sym : String) :
    (ofTheory theory).names[fallbackCode sym]? = none := by
  rw [Option.eq_none_iff_forall_ne_some]
  intro name hname
  obtain ⟨n, hn, hcode⟩ := exists_of_mem_numbering (mem_numbering_of_name hname)
  have hle := le_fallbackCode sym
  rw [hcode, Int64.toInt_ofNat_of_lt (by omega)] at hle
  unfold fallbackBase at hle
  omega

/-! ## Reading a code -/

theorem symbol?_recorded_of_mem (hsize : theory.symbols.size < 2 ^ 40) (h : sym ∈ theory.symbols) :
    (recorded theory es).symbol? ((recorded theory es).code sym) = some sym := by
  have hof := isOf_recorded theory es
  rw [hof.symbol?_code (by omega)]
  refine (records_recorded theory es).kept _ _ ?_
  refine (recording_ofTheory (by omega)).numbered sym _ ?_
  exact mem_numbering_iff.mp (hof.mem_numbering_code h)

/-- The code of a symbol outside the theory is read as the first symbol that arrived with it. -/
theorem symbol?_recorded_of_notMem (hsize : theory.symbols.size < 2 ^ 40)
    (h : sym ∉ theory.symbols) :
    (recorded theory es).symbol? ((recorded theory es).code sym) =
      (arrivals es).find? fun name =>
        decide (name ∉ theory.symbols ∧ fallbackCode name = fallbackCode sym) := by
  have hof := isOf_recorded theory es
  rw [hof.symbol?_code (by omega), code_of_notMem (mt hof.mem_codes_iff.mp h), names_recorded,
    names_ofTheory_fallbackCode hsize, Option.none_or]
  congr 1
  funext name
  exact decide_eq_decide.mpr (and_congr_left' (not_congr (isOf_ofTheory theory).mem_codes_iff))

/-! ## Code books of a theory -/

/-- The names of a code book with the symbols of expressions on record are a partial inverse of its
codes. -/
structure Inverts (theory : Theory) (es : List Expr) : Prop where
  /-- The symbols of the theory have the codes from one to their number, -/
  numbered : ∀ c : Int64, (∃ sym, (recorded theory es).theoryCode? sym = some c) ↔
    1 ≤ c.toInt ∧ c.toInt ≤ theory.symbols.size
  /-- and no other symbols have such codes. -/
  mentioned : ∀ sym, (∃ c, (recorded theory es).theoryCode? sym = some c) ↔ sym ∈ theory.symbols
  /-- The codes of the theory go up with the symbols. -/
  increasing : ∀ sym ∈ theory.symbols, ∀ sym' ∈ theory.symbols,
    sym < sym' ↔ (recorded theory es).code sym < (recorded theory es).code sym'
  /-- Other symbols have codes from digests of their names, -/
  outside : ∀ sym, sym ∉ theory.symbols → (recorded theory es).code sym = fallbackCode sym
  /-- which lie from `2 ^ 40` to `2 ^ 41`. -/
  fallback : ∀ sym, 2 ^ 40 ≤ (fallbackCode sym).toInt ∧ (fallbackCode sym).toInt < 2 ^ 41
  /-- What a code without sign is read as has that code. -/
  faithful : ∀ c sym, 0 ≤ c → (recorded theory es).symbol? c = some sym →
    (recorded theory es).code sym = c
  /-- The symbols of the theory are read from their codes. -/
  reads : ∀ sym ∈ theory.symbols,
    (recorded theory es).symbol? ((recorded theory es).code sym) = some sym
  /-- Any other symbol that has arrived is read from its code, exactly if no different one with this
  code arrived before it. -/
  readsFirst : ∀ sym, sym ∉ theory.symbols → (∃ e ∈ es, sym ∈ e.symbols) →
    ((recorded theory es).symbol? ((recorded theory es).code sym) = some sym ↔
      ∀ sym', sym' ∉ theory.symbols → fallbackCode sym' = fallbackCode sym → sym' ≠ sym →
        ¬ (arrivals es).idxOf sym' < (arrivals es).idxOf sym)
  /-- What a code is read as stays, whatever arrives later. -/
  kept : ∀ (es' : List Expr) c sym, (recorded theory es).symbol? c = some sym →
    (es'.foldl register (recorded theory es)).symbol? c = some sym

theorem symbol?_kept {es' : List Expr} (h : (recorded theory es).symbol? c = some sym) :
    (es'.foldl register (recorded theory es)).symbol? c = some sym := by
  rw [← recorded_append]
  have hstride : (recorded theory (es ++ es')).stride = (recorded theory es).stride := by
    rw [(isOf_recorded theory _).stride_eq, (isOf_recorded theory _).stride_eq]
  unfold symbol? at h ⊢
  by_cases hc : c < 0
  · rw [if_pos hc] at h ⊢
    rwa [hstride]
  · rw [if_neg hc] at h ⊢
    rw [names_recorded] at h ⊢
    rw [arrivals, List.flatMap_append, List.find?_append, ← Option.or_assoc]
    exact Option.or_eq_some_iff.mpr (.inl h)

/-- **The names of a code book are a partial inverse of its codes**, for any theory with fewer than
`2 ^ 40` symbols and after any expressions. -/
theorem recorded_inverse (hsize : theory.symbols.size < 2 ^ 40) (es : List Expr) :
    Inverts theory es where
  numbered _ := exists_theoryCode?_iff hsize
  mentioned _ := exists_theoryCode?_iff_mem
  increasing _ h _ h' := (code_lt_code_iff hsize h h').symm
  outside _ h := code_of_notMem (mt (isOf_recorded theory es).mem_codes_iff.mp h)
  fallback sym := ⟨le_fallbackCode sym, toInt_fallbackCode_lt sym⟩
  faithful _ _ hc h := (faithful_recorded theory es).code_of_symbol? hc h
  reads _ h := symbol?_recorded_of_mem hsize h
  readsFirst sym h harrived := by
    rw [symbol?_recorded_of_notMem hsize h,
      find?_eq_some_iff_idxOf (mem_arrivals_iff.mpr harrived) (by simp [h])]
    simp only [decide_eq_true_eq, and_imp]
  kept _ _ _ h := symbol?_kept h

/-- Two variables outside the theory whose names have one code: the first is read back, the second
is not. -/
theorem recorded_inverse_clash : ∃ (theory : Theory) (b : CodeBook),
    theory.symbols.size < 2 ^ 40 ∧
    b = recorded theory [Pairs.thingVar "w469231", Pairs.thingVar "w1373063"] ∧
    fallbackCode "w1373063" = fallbackCode "w469231" ∧
    b.symbol? (b.code "w469231") = some "w469231" ∧
    b.symbol? (b.code "w1373063") ≠ some "w1373063" := by
  let es := [Pairs.thingVar "w469231", Pairs.thingVar "w1373063"]
  obtain ⟨theory, -, h⟩ := Pairs.exists_theory (P := fun theory => decide (
      theory.symbols.size < 2 ^ 40 ∧ "T" ∈ theory.symbols ∧ "w469231" ∉ theory.symbols ∧
      "w1373063" ∉ theory.symbols)) (by decide +kernel)
  obtain ⟨hsize, hmentioned, hfirst, hsecond⟩ := of_decide_eq_true h
  have hcode : fallbackCode "w1373063" = fallbackCode "w469231" := by decide +kernel
  have harrivals : arrivals es = ["T", "w469231", "T", "w1373063"] := by decide +kernel
  have hreads := (recorded_inverse hsize es).readsFirst
  refine ⟨theory, _, hsize, rfl, hcode, ?_, fun hread => ?_⟩
  · refine (hreads _ hfirst ⟨_, List.mem_cons_self, by decide +kernel⟩).mpr ?_
    rintro sym hsym - - hlt
    rw [harrivals] at hlt
    have hT : sym = "T" := by
      by_contra hne
      rw [List.idxOf_cons_ne _ (Ne.symm hne)] at hlt
      exact absurd hlt (by simp [List.idxOf_cons])
    exact hsym (hT ▸ hmentioned)
  · refine (hreads _ hsecond ⟨_, List.mem_cons_of_mem _ List.mem_cons_self, by decide +kernel⟩).mp
      hread _ hfirst hcode.symm (by decide) ?_
    rw [harrivals]
    decide

end SortedRewriting.CodeBook
