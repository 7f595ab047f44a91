import SortedRewriting.Proofs.Engine.Decoding

/-!
# Encoding and decoding are inverse to each other

The kind of a node is not stored, vacant slots are left out, and a name is read from whatever was
put on record first. Where these lose nothing, a term comes back from its tree, and a tree from its
term.

* `CodeBook.decode_encode_iff`: the terms that come back from their trees.
* `CodeBook.encode_of_decode`: the trees that come back from the terms that they decode to.
* **`CodeBook.decode_encode_inverse`**: both, for any terms on record besides the theory.
-/

namespace SortedRewriting

namespace Pairs

variable {x y : Tree} {c : Int64}

theorem canonical_varTree (code : Int64) : (varTree code).Canonical 3 :=
  Tree.canonical_build
    (List.forall_mem_singleton.mpr (Tree.canonical_build nofun (by decide))) (by decide)

theorem canonical_pairTree (hx : x.Canonical 3) (hy : y.Canonical 3) :
    (pairTree x y).Canonical 3 := by
  refine Tree.canonical_build (fun c hc => ?_) (Nat.le_refl 3)
  rcases List.mem_cons.mp hc with rfl | hc
  · exact Tree.canonical_build nofun (by decide)
  · rcases List.mem_cons.mp hc with rfl | hc
    · exact hx
    · exact List.mem_singleton.mp hc ▸ hy

theorem occurs_pairTree (h : (pairTree x y).Occurs c) :
    c = 2 ∨ c = 1 ∨ x.Occurs c ∨ y.Occurs c := by
  rcases Tree.occurs_build h with hc | ⟨z, hz, hc⟩
  · exact .inl hc
  · rcases List.mem_cons.mp hz with rfl | hz
    · rcases Tree.occurs_build hc with hc | ⟨z, hz, -⟩
      · exact .inr (.inl hc)
      · exact absurd hz nofun
    · rcases List.mem_cons.mp hz with rfl | hz
      · exact .inr (.inr (.inl hc))
      · exact .inr (.inr (.inr (List.mem_singleton.mp hz ▸ hc)))

end Pairs

namespace CodeBook

variable {b : CodeBook} {width : Nat} {c : Int64} {k : Kind} {s : String} {e : Expr}
  {as : List Expr} {x : Tree} {cs : List Tree}

/-! ## From terms to trees and back -/

/-- A term that comes back is on record, every symbol with its kind. -/
theorem reads_of_decode_encode (hwidth : e.Within width)
    (h : b.decode (b.encode width e) = .ok e) : b.Reads e := by
  induction e with
  | node k s as ih =>
    have hnodes : ∀ x ∈ as.map (b.encode width), x.isNode = true := by
      intro x hx
      obtain ⟨a, ha, rfl⟩ := List.mem_map.mp hx
      obtain ⟨ds, hds⟩ := exists_encode_eq_node (b := b) (hwidth.arg ha)
      rw [hds]
      rfl
    rw [encode_node hwidth, decode_slots_eq_ok_iff hnodes] at h
    obtain ⟨s', as', hsymbol, hall, -, heq⟩ := h
    cases heq
    have hargs : ∀ a ∈ as, b.Reads a := fun a ha => by
      rw [Decode, List.forall₂_map_left_iff] at hall
      exact ih a ha (hwidth.arg ha) (List.forall₂_same.mp hall a ha)
    constructor
    · intro u hu
      rcases Expr.isSubterm_node_iff.mp hu with rfl | ⟨a, ha, hu⟩
      · exact hsymbol
      · exact (hargs a ha).symbols u hu
    · intro u hu
      rcases Expr.isSubterm_node_iff.mp hu with rfl | ⟨a, ha, hu⟩
      · rfl
      · exact (hargs a ha).kinds u hu

/-- **The terms that come back from their trees**: no node is too wide, and every symbol is on
record under its code, with its kind. -/
theorem decode_encode_iff (hwf : e.WellFormed) :
    b.decode (b.encode width e) = .ok e ↔ e.Within width ∧ b.Reads e := by
  refine ⟨fun h => ?_, fun h => decode_encode hwf h.1 h.2⟩
  have hwidth : e.Within width := within_of_encode_ne_error fun herror => by
    rw [herror] at h
    exact absurd h nofun
  exact ⟨hwidth, reads_of_decode_encode hwidth h⟩

/-! ## From trees to terms and back -/

/-- **A canonical tree without introduced variables comes back from what it decodes to.** -/
theorem encode_of_decode (hb : b.Faithful) (hx : x.Canonical width)
    (hcodes : ∀ c, x.Occurs c → 0 ≤ c) (h : b.decode x = .ok e) : b.encode width e = x := by
  induction hx generalizing e with
  | @node c cs unused slots children ih =>
    obtain ⟨s, as, hsymbol, hall, -, rfl⟩ :=
      (decode_slots_eq_ok_iff (fun c hc => (children c hc).isNode) unused).mp h
    have hcode : b.code s = c := hb.code_of_symbol? (hcodes c .here) hsymbol
    have hmap : as.map (b.encode width) = cs := by
      refine List.forall₂_eq_eq_eq ▸ ?_
      rw [List.forall₂_map_left_iff]
      refine (forall₂_imp_mem hall fun x hx a _ hxa => ?_).flip
      exact ih x hx (fun c hc => hcodes c (.child (List.mem_append_left _ hx) hc)) hxa
    have herror : Tree.error ∉ cs := fun he => (children _ he).regular.ne_error rfl
    rw [encode, encodeAll_eq_map, hmap, hcode, Tree.build_eq_node (by omega) herror]
    congr 3
    omega

/-! ## What is on record -/

theorem Records.append {b₁ b₂ : CodeBook} {syms syms' : List String} (h : b.Records b₁ syms)
    (h' : b₁.Records b₂ syms') : b.Records b₂ (syms ++ syms') := by
  refine ⟨h'.codes.trans h.codes, fun c sym hname => h'.kept c sym (h.kept c sym hname),
    fun c sym hname => ?_, fun sym hsym hnot => ?_⟩
  · rcases h'.added c sym hname with hname | ⟨hsym, hcode⟩
    · exact (h.added c sym hname).imp_right (And.imp_left (List.mem_append_left syms'))
    · exact .inr ⟨List.mem_append_right syms hsym, (h.code_eq sym).symm.trans hcode⟩
  · rcases List.mem_append.mp hsym with hsym | hsym
    · obtain ⟨name, hname⟩ := h.named sym hsym hnot
      exact ⟨name, h'.kept _ name hname⟩
    · rw [← h.code_eq sym]
      exact h'.named sym hsym (h.codes ▸ hnot)

/-- The book of a theory with the symbols of expressions on record, one after the other. -/
def recorded (theory : Theory) (es : List Expr) : CodeBook := es.foldl register (ofTheory theory)

variable {theory : Theory}

theorem records_recorded (theory : Theory) (es : List Expr) :
    (ofTheory theory).Records (recorded theory es) (es.flatMap (·.symbols.toList)) := by
  have hrecords : ∀ b : CodeBook, b.Records (es.foldl register b) (es.flatMap (·.symbols.toList)) := by
    induction es with
    | nil => exact fun b => records_foldl [] b
    | cons e es ih => exact fun b => (records_register b e).append (ih (b.register e))
  exact hrecords _

theorem faithful_recorded (theory : Theory) (es : List Expr) : (recorded theory es).Faithful :=
  (faithful_ofTheory theory).of_records (records_recorded theory es)

theorem isOf_recorded (theory : Theory) (es : List Expr) : (recorded theory es).IsOf theory := by
  have hof : ∀ b : CodeBook, b.IsOf theory → (es.foldl register b).IsOf theory := by
    induction es with
    | nil => exact fun b hb => hb
    | cons e es ih => exact fun b hb => ih _ (hb.register e)
  exact hof _ (isOf_ofTheory theory)

/-- The kind that a theory declares a symbol with. -/
theorem IsOf.reads_iff (hb : b.IsOf theory) (ht : theory.Consistent) :
    b.Reads e ↔ (∀ sym ∈ e.symbols, b.symbol? (b.code sym) = some sym) ∧
      ∀ u : Expr, u.IsSubterm e → u.kind =
        if u.sym ∈ theory.sorts then .sort else if u.sym ∈ theory.ops then .app else .var := by
  have hkind : ∀ sym, b.kindOf sym =
      if sym ∈ theory.sorts then .sort else if sym ∈ theory.ops then .app else .var := by
    intro sym
    rw [hb.kindOf_eq ht]
    by_cases hops : sym ∈ theory.ops
    · rw [if_pos hops, if_neg (ht.notMem_sorts hops), if_pos hops]
    · rw [if_neg hops, if_neg hops]
  constructor
  · intro h
    refine ⟨fun sym hsym => ?_, fun u hu => ((hkind u.sym).symm.trans (h.kinds u hu)).symm⟩
    obtain ⟨u, hu, rfl⟩ := Expr.mem_symbols_iff.mp hsym
    exact h.symbols u hu
  · rintro ⟨hsymbols, hkinds⟩
    exact ⟨fun u hu => hsymbols u.sym (Expr.mem_symbols_iff.mpr ⟨u, hu, rfl⟩),
      fun u hu => (hkind u.sym).trans (hkinds u hu).symm⟩

/-- **Encoding and decoding are inverse to each other**, with the symbols of any terms on record: a
well-formed term comes back exactly if no node is too wide, each symbol is read from its code, and
each node has the kind that its symbol is declared with; a tree of canonical form without negative
codes comes back if it decodes at all. -/
theorem decode_encode_inverse (made : theory.Made) (es : List Expr) (width : Nat) :
    (∀ t : Expr, t.WellFormed →
      ((recorded theory es).decode ((recorded theory es).encode width t) = .ok t ↔
        t.Within width ∧
        (∀ sym ∈ t.symbols,
          (recorded theory es).symbol? ((recorded theory es).code sym) = some sym) ∧
        ∀ u : Expr, u.IsSubterm t → u.kind =
          if u.sym ∈ theory.sorts then .sort else if u.sym ∈ theory.ops then .app else .var)) ∧
    ∀ a : Tree, (a = .vacant ∨ a.Canonical width) → (∀ c, a.Occurs c → 0 ≤ c) → ∀ e,
      (recorded theory es).decode a = .ok e → (recorded theory es).encode width e = a := by
  constructor
  · intro t ht
    rw [decode_encode_iff ht, (isOf_recorded theory es).reads_iff made.consistent]
  · rintro a (rfl | hcanonical) hcodes e he
    · exact absurd he nofun
    · exact encode_of_decode (faithful_recorded theory es) hcanonical hcodes he

/-- A pair of a variable of the theory and one that was put on record comes back from its tree, and
so does the tree. -/
theorem decode_encode_inverse_pair : ∃ theory : Theory, theory.Made ∧
    (recorded theory [Pairs.thingVar "z"]).decode ((recorded theory [Pairs.thingVar "z"]).encode 3
      (Pairs.pair (Pairs.thingVar "x") (Pairs.thingVar "z"))) =
        .ok (Pairs.pair (Pairs.thingVar "x") (Pairs.thingVar "z")) ∧
    (recorded theory [Pairs.thingVar "z"]).encode 3
      (Pairs.pair (Pairs.thingVar "x") (Pairs.thingVar "y")) =
        Pairs.pairTree (Pairs.varTree 3) (Pairs.varTree 4) := by
  let es := [Pairs.thingVar "z"]
  let t := Pairs.pair (Pairs.thingVar "x") (Pairs.thingVar "z")
  obtain ⟨theory, made, h⟩ := Pairs.exists_theory (P := fun theory => decide (
      (∀ sym ∈ t.symbols.toList,
        (recorded theory es).symbol? ((recorded theory es).code sym) = some sym) ∧
      (∀ u ∈ Expr.subtermsOf [t], u.kind =
        if u.sym ∈ theory.sorts then .sort else if u.sym ∈ theory.ops then .app else .var) ∧
      (recorded theory es).decode (Pairs.pairTree (Pairs.varTree 3) (Pairs.varTree 4)) =
        .ok (Pairs.pair (Pairs.thingVar "x") (Pairs.thingVar "y"))))
    (by decide +kernel)
  obtain ⟨hsymbols, hkinds, hdecode⟩ := of_decide_eq_true h
  obtain ⟨hterm, htree⟩ := decode_encode_inverse made es 3
  refine ⟨theory, made, (hterm t (by decide)).mpr ⟨by decide, fun sym hsym => ?_, ?_⟩, ?_⟩
  · exact hsymbols sym (Std.ExtTreeSet.mem_toList.mpr hsym)
  · exact Expr.forall_isSubterm_iff.mpr hkinds
  · have hcanonical := Pairs.canonical_pairTree (Pairs.canonical_varTree 3) (Pairs.canonical_varTree 4)
    refine htree _ (.inr hcanonical) (fun c hc => ?_) _ hdecode
    rcases Pairs.occurs_pairTree hc with rfl | rfl | hc | hc
    · decide
    · decide
    · rcases Pairs.occurs_varTree hc with rfl | rfl <;> decide
    · rcases Pairs.occurs_varTree hc with rfl | rfl <;> decide

end CodeBook

end SortedRewriting
