import SortedRewriting.Proofs.Engine.Canonical
import SortedRewriting.Proofs.Engine.Encoding
import SortedRewriting.Proofs.Engine.Freshness
import SortedRewriting.Proofs.Expr.Instances
import SortedRewriting.Proofs.Theory.Replacing
import SortedRewriting.Proofs.Theory.Settled

/-!
# Decoding

`CodeBook.Reads b e`: every symbol of `e` is on record under its code, with the kind that it has in
the expression. Such an expression is read back from its tree, and so is what is put into it.

* `CodeBook.decode_node_eq_ok_iff`: what a node decodes to.
* `CodeBook.decode_getAt`, `CodeBook.decode_replaceAt_of_canonical`: what stands at a path of a tree
  that decodes, and what is put there.
* `CodeBook.decode_encode`, `CodeBook.decode_replaceAt`, `CodeBook.decode_instantiate`: what the
  tree of an expression decodes to, with another tree put at a position, and with trees for its
  variables.
* `CodeBook.IsOf.kindOf_eq`: the kind of a symbol is that of its declaration.
* `Engine.Compiled.symbol?_code`: the symbols of a theory stay on record.
-/

namespace SortedRewriting

namespace Tree

/-- The children before the vacant slots. -/
theorem filter_append_vacant {cs : List Tree} (h : ∀ c ∈ cs, c.isNode = true) (n : Nat) :
    (cs ++ List.replicate n vacant).filter (fun c => !c.isVacant) = cs := by
  rw [List.filter_append, List.filter_eq_self.mpr, List.filter_eq_nil_iff.mpr, List.append_nil]
  · intro c hc
    rw [(List.mem_replicate.mp hc).2]
    exact nofun
  · intro c hc
    obtain ⟨t, ds, rfl⟩ := isNode_iff.mp (h c hc)
    rfl

end Tree

namespace CodeBook

variable {b : CodeBook} {width : Nat} {c : Int64} {k : Kind} {s : String} {e r u : Expr}
  {as : List Expr} {x z : Tree} {cs : List Tree} {p : Position}

/-! ## Nodes -/

/-- Trees decode to expressions, one by one. -/
abbrev Decode (b : CodeBook) : List Tree → List Expr → Prop :=
  List.Forall₂ fun x a => b.decode x = .ok a

theorem decode_map {f : Expr → Tree} {g : Expr → Expr}
    (h : ∀ a ∈ as, b.decode (f a) = .ok (g a)) : b.Decode (as.map f) (as.map g) := by
  induction as with
  | nil => exact .nil
  | cons a as ih =>
    obtain ⟨ha, has⟩ := List.forall_mem_cons.mp h
    exact .cons ha (ih has)

/-- All children are decoded that are no vacant slots. -/
theorem decodeAll_eq_mapM : b.decodeAll cs = (cs.filter fun c => !c.isVacant).mapM b.decode := by
  induction cs with
  | nil => rfl
  | cons c cs ih =>
    rw [decodeAll]
    by_cases hc : c.isVacant = true
    · rw [if_pos hc, List.filter_cons_of_neg (by simp [hc]), ih]
    · rw [if_neg hc, List.filter_cons_of_pos (by rw [eq_false_of_ne_true hc]; rfl),
        List.mapM_cons, ih]

theorem decodeAll_eq_ok_iff :
    b.decodeAll cs = .ok as ↔ b.Decode (cs.filter fun c => !c.isVacant) as := by
  rw [decodeAll_eq_mapM, mapM_eq_ok_iff]

/-- **A node decodes to its symbol over its decoded children**, if they obey the shape rules. -/
theorem decode_node_eq_ok_iff : b.decode (.node c cs) = .ok e ↔
    ∃ s as, b.symbol? c = some s ∧ b.Decode (cs.filter fun c => !c.isVacant) as ∧
      Expr.checkShape (b.kindOf s) s as = .ok () ∧ e = .node (b.kindOf s) s as := by
  rw [decode]
  cases hs : b.symbol? c with
  | none => exact ⟨nofun, fun ⟨s, _, h, _⟩ => nomatch h⟩
  | some s =>
    simp only [bind_eq_ok_iff, decodeAll_eq_ok_iff, Option.some.injEq]
    constructor
    · rintro ⟨as, has, h⟩
      split at h
      · rename_i e' hbuild
        cases h
        exact ⟨s, as, rfl, has, Expr.build_eq_ok_iff.mp hbuild⟩
      · exact absurd h nofun
    · rintro ⟨s', as, rfl, has, h⟩
      exact ⟨as, has, by rw [Expr.build_eq_ok_iff.mpr h]⟩

/-- What is decoded is well formed. -/
theorem decode_wellFormed (h : b.decode x = .ok e) : e.WellFormed := by
  induction x generalizing e with
  | node c cs ih =>
    obtain ⟨s, as, -, hall, hshape, rfl⟩ := decode_node_eq_ok_iff.mp h
    refine .node hshape fun a ha => ?_
    obtain ⟨x, hx, hxa⟩ := exists_of_mem_left hall.flip ha
    exact ih x (List.mem_filter.mp hx).1 hxa
  | vacant => exact absurd h nofun
  | error => exact absurd h nofun

theorem isNode_of_decode (h : b.decode x = .ok e) : x.isNode = true := by
  cases x with
  | node c cs => rfl
  | vacant => exact absurd h nofun
  | error => exact absurd h nofun

/-- What is decoded of a node whose children stand before its vacant slots. -/
theorem decode_slots_eq_ok_iff (hcs : ∀ c ∈ cs, c.isNode = true) (n : Nat) :
    b.decode (.node c (cs ++ List.replicate n .vacant)) = .ok e ↔
      ∃ s as, b.symbol? c = some s ∧ b.Decode cs as ∧
        Expr.checkShape (b.kindOf s) s as = .ok () ∧ e = .node (b.kindOf s) s as := by
  rw [decode_node_eq_ok_iff, Tree.filter_append_vacant hcs]

theorem isNode_of_mem_decode (h : b.Decode cs as) : ∀ c ∈ cs, c.isNode = true := fun _ hc =>
  have ⟨_, _, ha⟩ := exists_of_mem_left h hc
  isNode_of_decode ha

theorem error_notMem_of_decode (h : b.Decode cs as) (n : Nat) :
    Tree.error ∉ cs ++ List.replicate n .vacant := by
  intro herror
  rcases List.mem_append.mp herror with herror | herror
  · exact absurd (isNode_of_mem_decode h _ herror) nofun
  · exact absurd (List.mem_replicate.mp herror).2 nofun

/-- A node decodes to its symbol over the decoded children. -/
theorem decode_node (hcode : b.symbol? c = some s) (hkind : b.kindOf s = k)
    (hshape : Expr.checkShape k s as = .ok ()) (h : b.Decode cs as) (n : Nat) :
    b.decode (.node c (cs ++ List.replicate n .vacant)) = .ok (.node k s as) := by
  subst hkind
  exact (decode_slots_eq_ok_iff (isNode_of_mem_decode h) n).mpr ⟨s, as, hcode, h, hshape, rfl⟩

theorem decode_build (hcode : b.symbol? c = some s) (hkind : b.kindOf s = k)
    (hshape : Expr.checkShape k s as = .ok ()) (h : b.Decode cs as) (hlen : cs.length ≤ width) :
    b.decode (.build c cs width) = .ok (.node k s as) := by
  have herror : Tree.error ∉ cs := fun he =>
    error_notMem_of_decode h 0 (List.mem_append_left _ he)
  rw [Tree.build_eq_node hlen herror]
  exact decode_node hcode hkind hshape h _

/-! ## Subtrees -/

/-- In a canonical tree, the node in a slot decodes to the child there. -/
theorem decode_child (hx : x.Canonical width) (h : b.decode x = .ok e) {i : Nat}
    (hi : (x.child i).isNode = true) : ∃ a, e.args[i]? = some a ∧ b.decode (x.child i) = .ok a := by
  cases hx with
  | @node c cs unused slots children =>
    obtain ⟨s, as, -, hall, -, rfl⟩ :=
      (decode_slots_eq_ok_iff (fun c hc => (children c hc).isNode) unused).mp h
    have hlt := Tree.lt_of_isNode_child hi
    rw [Tree.child_node, List.getElem?_append_left hlt, List.getElem?_eq_getElem hlt]
    exact exists_getElem?_of_forall₂ hall (List.getElem?_eq_getElem hlt)

/-- In a canonical tree, the node at a path decodes to the subterm there. -/
theorem decode_getAt (hx : x.Canonical width) (h : b.decode x = .ok e)
    (hp : (x.getAt p).isNode = true) :
    ∃ u, e.subterm? p = some u ∧ b.decode (x.getAt p) = .ok u := by
  induction p generalizing x e with
  | nil => exact ⟨e, rfl, h⟩
  | cons i p ih =>
    have hi := Tree.isNode_child hp
    obtain ⟨a, ha, hchild⟩ := decode_child hx h hi
    obtain ⟨u, hu, hsub⟩ := ih (hx.child hi) hchild hp
    exact ⟨u, Expr.subterm?_cons_iff.mpr ⟨a, ha, hu⟩, hsub⟩

/-- **What is put into a canonical tree is decoded in its place**: a term for a term, or a sort for a
sort. -/
theorem decode_replaceAt_of_canonical (hx : x.Canonical width) (h : b.decode x = .ok e)
    (hu : e.subterm? p = some u) (hz : b.decode z = .ok r) (hsort : r.isSort = u.isSort) :
    b.decode (x.replaceAt p z) = .ok (e.replaceAt p r) := by
  induction p generalizing x e with
  | nil => exact hz
  | cons i p ih =>
    cases hx with
    | @node c cs unused slots children =>
      obtain ⟨s, as, hsymbol, hall, hshape, rfl⟩ :=
        (decode_slots_eq_ok_iff (fun c hc => (children c hc).isNode) unused).mp h
      obtain ⟨a, ha, hu⟩ := Expr.subterm?_cons_iff.mp hu
      change as[i]? = some a at ha
      obtain ⟨y, hy, hya⟩ := exists_getElem?_of_forall₂ hall.flip ha
      have hset := forall₂_set hall i (ih (children y (List.mem_of_getElem? hy)) hya hu)
      have hlt := (List.getElem?_eq_some_iff.mp hy).1
      have hlen : (cs ++ List.replicate unused Tree.vacant).length =
          (cs.set i (y.replaceAt p z) ++ List.replicate unused Tree.vacant).length := by simp
      have hchild : (Tree.node c (cs ++ List.replicate unused Tree.vacant)).child i = y := by
        rw [Tree.child_node, List.getElem?_append_left hlt, hy, Option.getD_some]
      rw [Tree.replaceAt, if_pos (by rw [List.length_append]; omega), hchild,
        List.set_append_left _ _ hlt, hlen, Tree.build_length (error_notMem_of_decode hset unused),
        Expr.replaceAt_cons ha]
      refine decode_node hsymbol rfl ?_ hset unused
      exact (Expr.checkShape_set ha (Expr.isSort_replaceAt hu hsort)).trans hshape

/-! ## Encodings -/

/-- Every symbol of the expression is on record under its code, with its kind. -/
structure Reads (b : CodeBook) (e : Expr) : Prop where
  symbols : ∀ u : Expr, u.IsSubterm e → b.symbol? (b.code u.sym) = some u.sym
  kinds : ∀ u : Expr, u.IsSubterm e → b.kindOf u.sym = u.kind

theorem Reads.subterm (h : b.Reads e) (hu : u.IsSubterm e) : b.Reads u :=
  ⟨fun v hv => h.symbols v (hv.trans hu), fun v hv => h.kinds v (hv.trans hu)⟩

theorem Reads.node (h : b.Reads (.node k s as)) :
    b.symbol? (b.code s) = some s ∧ b.kindOf s = k :=
  ⟨h.symbols (.node k s as) (.refl _), h.kinds (.node k s as) (.refl _)⟩

/-- Symbols that are on record are told from each other by their codes. -/
theorem separates_of_reads {es : List Expr} (h : ∀ e ∈ es, b.Reads e) : b.Separates es := by
  constructor
  · rintro t t' ⟨e, he, ht⟩ ⟨e', he', ht'⟩ hsym
    rw [← (h e he).kinds t ht, hsym, (h e' he').kinds t' ht']
  · rintro t t' ⟨e, he, ht⟩ ⟨e', he', ht'⟩ hcode
    have hsym := (h e he).symbols t ht
    rw [hcode, (h e' he').symbols t' ht'] at hsym
    exact (Option.some.inj hsym).symm

/-- **The tree of an expression decodes to it.** -/
theorem decode_encode (hwf : e.WellFormed) (hwidth : e.Within width) (h : b.Reads e) :
    b.decode (b.encode width e) = .ok e := by
  induction e with
  | node k s as ih =>
    obtain ⟨hshape, hargs⟩ := Expr.wellFormed_node_iff.mp hwf
    have hchildren : b.Decode (as.map (b.encode width)) (as.map id) := decode_map fun a ha =>
      ih a ha (hargs a ha) (hwidth.arg ha) (h.subterm (Expr.isSubterm_arg ha))
    have hlen : (as.map (b.encode width)).length ≤ width := by
      rw [List.length_map]
      exact hwidth _ (.refl _)
    rw [List.map_id] at hchildren
    rw [encode, encodeAll_eq_map]
    exact decode_build h.node.1 h.node.2 hshape hchildren hlen

/-- **What is put into the tree of an expression is decoded in its place.** -/
theorem decode_replaceAt (hwf : e.WellFormed) (hwidth : e.Within width) (h : b.Reads e)
    (hu : e.subterm? p = some u) (hz : b.decode z = .ok r) (hkind : r.isSort = u.isSort) :
    b.decode ((b.encode width e).replaceAt p z) = .ok (e.replaceAt p r) := by
  have hcanonical : (b.encode width e).Canonical width :=
    canonical_encode (encode_regular hwidth).ne_error
  exact decode_replaceAt_of_canonical hcanonical (decode_encode hwf hwidth h) hu hz hkind

/-- **An instantiation decodes to the expression with its variables filled in**: those with an
assigned expression by its tree, the others by tags that are read as names of variables. -/
theorem decode_instantiate {tag : Kind → String → Int64} {σ : Bindings.Assignment}
    {rename : String → String}
    (hassigned : ∀ name x, σ name = some x →
      b.decode (b.encode width x) = .ok x ∧ x.isSort = false)
    (hfree : ∀ name ∈ e.varNames, σ name = none → b.symbol? (tag .var name) = some (rename name) ∧
      b.kindOf (rename name) = .var ∧ rename name ≠ "")
    (hnodes : ∀ u : Expr, u.IsSubterm e → u.kind ≠ .var →
      b.symbol? (tag u.kind u.sym) = some u.sym ∧ b.kindOf u.sym = u.kind)
    (hwf : e.WellFormed)
    (hne : e.instantiate width tag (fun name => (σ name).map (b.encode width)) ≠ .error) :
    b.decode (e.instantiate width tag fun name => (σ name).map (b.encode width)) =
      .ok (e.fill σ rename) := by
  induction e with
  | node k s as ih =>
    obtain ⟨hshape, hargs⟩ := Expr.wellFormed_node_iff.mp hwf
    have hchildren : Tree.error ∉ as.map (Expr.instantiate width tag fun name =>
        (σ name).map (b.encode width)) →
        b.Decode (as.map (Expr.instantiate width tag fun name => (σ name).map (b.encode width)))
          (as.map (Expr.fill σ rename)) := by
      refine fun herror => decode_map fun a ha => ?_
      have hsub := Expr.isSubterm_arg (k := k) (s := s) ha
      exact ih a ha (fun name hname => hfree name (Expr.varNames_subset hsub hname))
        (fun u hu => hnodes u (hu.trans hsub)) (hargs a ha)
        fun he => herror (he ▸ List.mem_map_of_mem ha)
    have hsorts : (as.map (Expr.fill σ rename)).map Expr.isSort = as.map Expr.isSort := by
      rw [List.map_map]
      exact List.map_congr_left fun a _ =>
        Expr.isSort_fill fun name _ x hx => (hassigned name x hx).2
    by_cases hk : k = .var
    · subst hk
      rw [Expr.instantiate, if_pos rfl] at hne ⊢
      cases hs : σ s with
      | some x =>
        rw [Expr.fill_of_assigned hs]
        exact (hassigned s x hs).1
      | none =>
        rw [hs] at hne
        simp only [Option.map_none, Expr.instantiateAll_eq_map] at hne ⊢
        obtain ⟨hlen, herror⟩ := Tree.build_ne_error hne
        obtain ⟨hsymbol, hkind, hname⟩ := hfree s (Expr.mem_varNames_iff.mpr ⟨as, .refl _⟩) hs
        rw [Expr.fill_of_free hs]
        refine decode_build hsymbol hkind ?_ (hchildren herror) hlen
        rw [Expr.checkShape_congr hsorts]
        exact Expr.checkShape_var_iff.mpr ⟨hname, (Expr.checkShape_var_iff.mp hshape).2⟩
    · rw [Expr.instantiate, if_neg hk, Expr.instantiateAll_eq_map] at hne ⊢
      obtain ⟨hlen, herror⟩ := Tree.build_ne_error hne
      obtain ⟨hsymbol, hkind⟩ := hnodes _ (.refl _) hk
      rw [Expr.fill_node hk]
      refine decode_build hsymbol hkind ?_ (hchildren herror) hlen
      rw [Expr.checkShape_congr hsorts, hshape]

/-! ## Kinds -/

variable {t : Theory} {sym : String}

/-- No symbol is declared twice. -/
theorem distinct_kinds (ht : t.Consistent) :
    (t.ops.keys.map (·, Kind.app) ++ t.sorts.keys.map (·, Kind.sort)).Pairwise
      fun a a' => ¬ compare a.1 a'.1 = .eq := by
  have hops := Std.ExtTreeMap.distinct_keys (t := t.ops)
  have hsorts := Std.ExtTreeMap.distinct_keys (t := t.sorts)
  refine List.pairwise_append.mpr ⟨List.pairwise_map.mpr hops, List.pairwise_map.mpr hsorts,
    fun a ha a' ha' heq => ?_⟩
  obtain ⟨f, hf, rfl⟩ := List.mem_map.mp ha
  obtain ⟨f', hf', rfl⟩ := List.mem_map.mp ha'
  cases Std.LawfulEqCmp.compare_eq_iff_eq.mp heq
  exact ht.notMem_sorts (Std.ExtTreeMap.mem_keys.mp hf) (Std.ExtTreeMap.mem_keys.mp hf')

/-- **A symbol has the kind that it is declared with**, and is a variable otherwise. -/
theorem IsOf.kindOf_eq (h : b.IsOf t) (ht : t.Consistent) (sym : String) :
    b.kindOf sym = if sym ∈ t.ops then .app else if sym ∈ t.sorts then .sort else .var := by
  have hdistinct := distinct_kinds ht
  rw [kindOf, h.kinds_eq, ofTheory]
  simp only
  by_cases hops : sym ∈ t.ops
  · have hmem := List.mem_append_left (t.sorts.keys.map (·, Kind.sort))
      (List.mem_map_of_mem (f := (·, Kind.app)) (Std.ExtTreeMap.mem_keys.mpr hops))
    rw [if_pos hops, Std.ExtTreeMap.getElem?_ofList_of_mem Std.ReflCmp.compare_self hdistinct hmem]
    rfl
  · rw [if_neg hops]
    by_cases hsorts : sym ∈ t.sorts
    · have hmem := List.mem_append_right (t.ops.keys.map (·, Kind.app))
        (List.mem_map_of_mem (f := (·, Kind.sort)) (Std.ExtTreeMap.mem_keys.mpr hsorts))
      rw [if_pos hsorts,
        Std.ExtTreeMap.getElem?_ofList_of_mem Std.ReflCmp.compare_self hdistinct hmem]
      rfl
    · have hnone : sym ∉ Std.ExtTreeMap.ofList
          (t.ops.keys.map (·, Kind.app) ++ t.sorts.keys.map (·, Kind.sort)) compare := by
        rw [Std.ExtTreeMap.mem_ofList, List.contains_iff_mem, List.map_append, List.map_map,
          List.map_map, List.mem_append, List.mem_map, List.mem_map]
        rintro (⟨f, hf, rfl⟩ | ⟨f, hf, rfl⟩)
        · exact hops (Std.ExtTreeMap.mem_keys.mp hf)
        · exact hsorts (Std.ExtTreeMap.mem_keys.mp hf)
      rw [if_neg hsorts, Std.ExtTreeMap.getElem?_eq_none hnone]
      rfl

/-! ## Symbols on record -/

/-- What is found among the pairs that are put into a map is one of them, or was there before. -/
theorem mem_or_getElem?_of_insertMany {α β : Type} [Ord α] [Std.TransOrd α] [Std.LawfulEqOrd α]
    {l : List (α × β)} {m : Std.ExtTreeMap α β} {k : α} {v : β}
    (h : (m.insertMany l)[k]? = some v) : (k, v) ∈ l ∨ m[k]? = some v := by
  induction l generalizing m with
  | nil => exact .inr (by simpa using h)
  | cons a l ih =>
    rw [Std.ExtTreeMap.insertMany_cons] at h
    rcases ih h with hmem | hget
    · exact .inl (List.mem_cons_of_mem a hmem)
    · rw [Std.ExtTreeMap.getElem?_insert] at hget
      split at hget
      · rename_i heq
        cases hget
        cases Std.LawfulEqCmp.compare_eq_iff_eq.mp heq
        exact .inl List.mem_cons_self
      · exact .inr hget

theorem mem_numbering_iff {c : Int64} :
    (sym, c) ∈ numbering t ↔ (ofTheory t).codes[sym]? = some c := by
  refine ⟨fun h => ?_, fun h => (isOf_ofTheory t).mem_numbering h⟩
  exact Std.ExtTreeMap.getElem?_ofList_of_mem Std.ReflCmp.compare_self (numbering_distinct t) h

/-- The code of a symbol of the theory is its number. -/
theorem IsOf.mem_numbering_code (hb : b.IsOf t) (h : sym ∈ t.symbols) :
    (sym, b.code sym) ∈ numbering t := by
  rw [← Std.ExtTreeSet.mem_toList, ← map_fst_numbering] at h
  obtain ⟨⟨sym', c⟩, hmem, rfl⟩ := List.mem_map.mp h
  rwa [code, theoryCode?, hb.codes_eq, mem_numbering_iff.mp hmem]

theorem IsOf.mem_codes_iff (hb : b.IsOf t) : sym ∈ b.codes ↔ sym ∈ t.symbols := by
  rw [hb.codes_eq, ← Std.ExtTreeSet.mem_toList, ← map_fst_numbering]
  show sym ∈ Std.ExtTreeMap.ofList (numbering t) ↔ _
  rw [Std.ExtTreeMap.mem_ofList, List.contains_iff_mem]

/-- Every name on record stands under its code. -/
def Faithful (b : CodeBook) : Prop :=
  ∀ (c : Int64) (sym : String), b.names[c]? = some sym → b.code sym = c

/-- A name on record is numbered. -/
theorem mem_numbering_of_name {c : Int64} (h : (ofTheory t).names[c]? = some sym) :
    (sym, c) ∈ numbering t := by
  change (Std.ExtTreeMap.ofList ((numbering t).map fun a => (a.2, a.1)) compare)[c]? = _ at h
  rw [Std.ExtTreeMap.ofList_eq_insertMany_empty] at h
  have hmem := (mem_or_getElem?_of_insertMany h).resolve_right (by simp)
  obtain ⟨a, ha, heq⟩ := List.mem_map.mp hmem
  cases heq
  exact ha

theorem faithful_ofTheory (t : Theory) : (ofTheory t).Faithful := by
  intro c sym hname
  rw [code, theoryCode?, mem_numbering_iff.mp (mem_numbering_of_name hname)]
  rfl

theorem Faithful.of_records {b' : CodeBook} {syms : List String} (h : b.Faithful)
    (hrecords : b.Records b' syms) : b'.Faithful := by
  intro c sym hname
  rw [hrecords.code_eq]
  rcases hrecords.added c sym hname with hname | ⟨-, hcode⟩
  · exact h c sym hname
  · exact hcode

/-- A symbol that is read from a code without sign has that code. -/
theorem Faithful.code_of_symbol? {c : Int64} (h : b.Faithful) (hc : 0 ≤ c)
    (hsym : b.symbol? c = some sym) : b.code sym = c := by
  rw [symbol?, if_neg (Int64.not_lt.mpr hc)] at hsym
  exact h c sym hsym

/-- Numbered symbols are on record, and all names stand under their codes. -/
structure Recording (b : CodeBook) : Prop where
  numbered : ∀ (sym : String) (c : Int64), b.codes[sym]? = some c → b.names[c]? = some sym
  faithful : ∀ (c : Int64) (sym : String), b.names[c]? = some sym → b.code sym = c

theorem Recording.register (h : b.Recording) (e : Expr) : (b.register e).Recording := by
  have hrecords := records_register b e
  refine ⟨fun sym c hc => ?_, Faithful.of_records h.faithful hrecords⟩
  rw [hrecords.codes] at hc
  exact hrecords.kept c sym (h.numbered sym c hc)

/-- No two symbols have one number, as long as the numbers are in the range of codes. -/
theorem numbering_codes_distinct (hsize : t.symbols.size < 2 ^ 63) :
    ((numbering t).map fun (s, c) => (c, s)).Pairwise fun a a' => ¬ compare a.1 a'.1 = .eq := by
  have hlen : t.symbols.toList.length < 2 ^ 63 := by
    rw [Std.ExtTreeSet.length_toList]
    exact hsize
  unfold numbering
  rw [List.map_map, List.pairwise_map]
  have hlt : (t.symbols.toList.zipIdx 1).Pairwise fun a a' => a.2 < a'.2 := by
    rw [← List.pairwise_map, List.zipIdx_map_snd]
    exact List.pairwise_lt_range'
  refine hlt.imp_of_mem fun {a a'} ha ha' hlt heq => ?_
  have hbound := (List.mem_zipIdx ha).2.1
  have hbound' := (List.mem_zipIdx ha').2.1
  have hcode := congrArg Int64.toInt (Std.LawfulEqCmp.compare_eq_iff_eq.mp heq)
  simp only [Function.comp_apply] at hcode
  rw [Int64.toInt_ofNat_of_lt (by omega), Int64.toInt_ofNat_of_lt (by omega)] at hcode
  omega

theorem recording_ofTheory (hsize : t.symbols.size < 2 ^ 63) : (ofTheory t).Recording :=
  ⟨fun _ _ hc => Std.ExtTreeMap.getElem?_ofList_of_mem Std.ReflCmp.compare_self
      (numbering_codes_distinct hsize)
      (List.mem_map_of_mem (f := fun (s, c) => (c, s)) (mem_numbering_iff.mpr hc)),
    faithful_ofTheory t⟩

/-- The code of a symbol is read from the record. -/
theorem IsOf.symbol?_code (hb : b.IsOf t) (hsize : t.symbols.size < 2 ^ 63) (sym : String) :
    b.symbol? (b.code sym) = b.names[b.code sym]? :=
  if_neg (Int64.not_lt.mpr (hb.code_nonneg hsize sym))

end CodeBook

namespace Engine

variable {e : Engine} {sym : String}

theorem Compiled.recording (he : e.Compiled) (hsize : e.theory.symbols.size < 2 ^ 63) :
    e.book.Recording := by
  induction he with
  | @compile theory depth e made compile =>
    obtain ⟨theory', -, h⟩ := bind_eq_ok_iff.mp compile
    cases h
    exact CodeBook.recording_ofTheory hsize
  | register _ expr ih => exact (ih hsize).register expr

/-- **The symbols of a theory are on record.** -/
theorem Compiled.symbol?_code (he : e.Compiled) (hsize : e.theory.symbols.size < 2 ^ 63)
    (hsym : sym ∈ e.theory.symbols) : e.book.symbol? (e.book.code sym) = some sym := by
  have hbook := he.intact.book
  rw [hbook.symbol?_code hsize]
  refine (he.recording hsize).numbered sym _ ?_
  rw [hbook.codes_eq]
  exact CodeBook.mem_numbering_iff.mp (hbook.mem_numbering_code hsym)

end Engine

end SortedRewriting
