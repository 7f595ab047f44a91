import SortedRewriting.Proofs.Engine.Agreement
import SortedRewriting.Proofs.Expr.Matching

/-!
# Matching terms and matching their trees

An encoding is a regular tree, and its subtrees at positions are the encodings of subterms. Where
every symbol has one kind and a code of its own (`CodeBook.Separates`), it can be told from others.

* `CodeBook.getAt_encode`, `CodeBook.getAt_encode_none`: the subtree at a position of the term, and
  at any other path.
* `CodeBook.encode_node_inj`, `CodeBook.encode_injective`: nodes with the same tree have one code
  and children with the same trees, and separate terms have separate trees.
* `CodeBook.admits_encode_iff`, `CodeBook.admits_encode_var_iff`: which encodings are instances of a
  pattern, node by node.
* **`CodeBook.admits_of_agrees`** and **`CodeBook.agrees_of_admits`**: a term agrees with a pattern
  exactly when its tree is an instance of it.
-/

namespace SortedRewriting

/-- Every node has at most `width` children. -/
def Expr.Within (width : Nat) (e : Expr) : Prop :=
  ∀ t : Expr, t.IsSubterm e → t.args.length ≤ width

instance (width : Nat) (e : Expr) : Decidable (e.Within width) :=
  decidable_of_iff _ Expr.forall_isSubterm_iff.symm

theorem Expr.Within.subterm {width : Nat} {e t : Expr} (h : e.Within width)
    (ht : t.IsSubterm e) : t.Within width :=
  fun u hu => h u (hu.trans ht)

theorem Expr.Within.arg {width : Nat} {k : Kind} {s : String} {as : List Expr}
    (h : Expr.Within width (.node k s as)) {a : Expr} (ha : a ∈ as) : a.Within width :=
  h.subterm (isSubterm_arg ha)

namespace Tree

/-- Lists without vacant trees are told from each other behind any padding. -/
theorem append_vacant_inj {xs ys : List Tree} {m n : Nat} (hx : vacant ∉ xs) (hy : vacant ∉ ys)
    (h : xs ++ List.replicate m vacant = ys ++ List.replicate n vacant) : xs = ys := by
  have hfilter : ∀ (zs : List Tree) (l : Nat), vacant ∉ zs →
      (zs ++ List.replicate l vacant).filter (· ≠ vacant) = zs := by
    intro zs l hz
    rw [List.filter_append, List.filter_eq_self.mpr, List.filter_eq_nil_iff.mpr, List.append_nil]
    · intro z hmem
      simp [(List.mem_replicate.mp hmem).2]
    · intro z hmem
      exact decide_eq_true fun he => hz (he ▸ hmem)
  rw [← hfilter xs m hx, h, hfilter ys n hy]

end Tree

namespace CodeBook

open Bindings (Assignment)

variable {b : CodeBook} {width : Nat}

/-! ## Encodings -/

theorem encode_node_ne_vacant (e : Expr) : b.encode width e ≠ .vacant := by
  obtain ⟨k, s, as⟩ := e
  rw [encode]
  exact Tree.build_ne_vacant _ _ _

theorem encode_regular {e : Expr} (h : e.Within width) : (b.encode width e).Regular width := by
  induction e with
  | node k s as ih =>
    rw [encode, encodeAll_eq_map]
    refine Tree.regular_build ?_ fun c hc => ?_
    · rw [List.length_map]
      exact h _ (.refl _)
    · obtain ⟨a, ha, rfl⟩ := List.mem_map.mp hc
      exact ih a ha (h.arg ha)

/-- The encoding of a node, slot by slot. -/
theorem encode_node {k : Kind} {s : String} {as : List Expr}
    (h : Expr.Within width (.node k s as)) : b.encode width (.node k s as) =
      .node (b.code s) (as.map (b.encode width) ++ List.replicate (width - as.length) .vacant) := by
  have hlen : (as.map (b.encode width)).length ≤ width := by
    rw [List.length_map]
    exact h _ (.refl _)
  have herr : Tree.error ∉ as.map (b.encode width) := by
    intro he
    obtain ⟨a, ha, he⟩ := List.mem_map.mp he
    exact (encode_regular (h.arg ha)).ne_error he
  rw [encode, encodeAll_eq_map, Tree.build_eq_node hlen herr, List.length_map]

theorem exists_encode_eq_node {e : Expr} (h : e.Within width) :
    ∃ cs, b.encode width e = .node (b.code e.sym) cs := by
  obtain ⟨k, s, as⟩ := e
  exact ⟨_, encode_node h⟩

/-- A tree without errors is of an expression that fits into the width. -/
theorem within_of_encode_ne_error {e : Expr} (h : b.encode width e ≠ .error) : e.Within width := by
  induction e with
  | node k s as ih =>
    rw [encode, encodeAll_eq_map] at h
    obtain ⟨hlen, hcs⟩ := Tree.build_ne_error h
    rw [List.length_map] at hlen
    intro t ht
    rcases Expr.isSubterm_node_iff.mp ht with rfl | ⟨a, ha, ht⟩
    · exact hlen
    · exact ih a ha (fun herror => hcs (herror ▸ List.mem_map_of_mem ha)) t ht

theorem child_encode {k : Kind} {s : String} {as : List Expr}
    (h : Expr.Within width (.node k s as)) {i : Nat} {a : Expr} (ha : as[i]? = some a) :
    (b.encode width (.node k s as)).child i = b.encode width a := by
  rw [encode_node h, Tree.child_node, List.getElem?_append_left, List.getElem?_map, ha]
  · rfl
  · rw [List.length_map]
    exact (List.getElem?_eq_some_iff.mp ha).1

/-- There is no node in a slot without a child. -/
theorem isNode_child_encode {k : Kind} {s : String} {as : List Expr}
    (h : Expr.Within width (.node k s as)) {i : Nat} (ha : as[i]? = none) :
    ((b.encode width (.node k s as)).child i).isNode = false := by
  rw [encode_node h, Tree.child_node, List.getElem?_append_right, List.getElem?_replicate]
  · split <;> rfl
  · rw [List.length_map]
    exact List.getElem?_eq_none_iff.mp ha

/-- The subtree at a position is the encoding of the subterm. -/
theorem getAt_encode {e t : Expr} (h : e.Within width) {p : Position}
    (hp : e.subterm? p = some t) : (b.encode width e).getAt p = b.encode width t := by
  induction p generalizing e with
  | nil =>
    cases hp
    rfl
  | cons i p ih =>
    obtain ⟨k, s, as⟩ := e
    obtain ⟨a, ha, hp⟩ := Expr.subterm?_cons_iff.mp hp
    rw [Tree.getAt_cons, child_encode h ha]
    exact ih (h.arg (List.mem_of_getElem? ha)) hp

/-- At a path that is no position there is no node. -/
theorem getAt_encode_none {e : Expr} (h : e.Within width) {p : Position}
    (hp : e.subterm? p = none) : ((b.encode width e).getAt p).isNode = false := by
  induction p generalizing e with
  | nil => exact absurd hp nofun
  | cons i p ih =>
    obtain ⟨k, s, as⟩ := e
    rw [Tree.getAt_cons]
    cases ha : as[i]? with
    | none => exact Tree.isNode_getAt_eq_false (isNode_child_encode h ha) p
    | some a =>
      rw [child_encode h ha]
      refine ih (h.arg (List.mem_of_getElem? ha)) ?_
      rw [Expr.subterm?] at hp
      simpa [Expr.args, ha] using hp

/-! ## Separate symbols -/

/-- Among the subterms of the expressions every symbol has one kind, and no two have one code. -/
structure Separates (b : CodeBook) (es : List Expr) : Prop where
  kinds : ∀ t t' : Expr, (∃ e ∈ es, t.IsSubterm e) → (∃ e ∈ es, t'.IsSubterm e) →
    t.sym = t'.sym → t.kind = t'.kind
  codes : ∀ t t' : Expr, (∃ e ∈ es, t.IsSubterm e) → (∃ e ∈ es, t'.IsSubterm e) →
    b.code t.sym = b.code t'.sym → t.sym = t'.sym

variable {es : List Expr}

theorem separates_iff : b.Separates es ↔ ∀ t ∈ Expr.subtermsOf es, ∀ t' ∈ Expr.subtermsOf es,
    (t.sym = t'.sym → t.kind = t'.kind) ∧ (b.code t.sym = b.code t'.sym → t.sym = t'.sym) := by
  simp only [Expr.mem_subtermsOf_iff]
  exact ⟨fun h t ht t' ht' => ⟨h.kinds t t' ht ht', h.codes t t' ht ht'⟩,
    fun h => ⟨fun t t' ht ht' => (h t ht t' ht').1, fun t t' ht ht' => (h t ht t' ht').2⟩⟩

instance (b : CodeBook) (es : List Expr) : Decidable (b.Separates es) :=
  decidable_of_iff _ separates_iff.symm

theorem vacant_notMem_map_encode {as : List Expr} : Tree.vacant ∉ as.map (b.encode width) := by
  intro h
  obtain ⟨a, -, ha⟩ := List.mem_map.mp h
  exact encode_node_ne_vacant a ha

/-- Nodes with the same tree have one code, and children with the same trees. -/
theorem encode_node_inj {k k' : Kind} {s s' : String} {as as' : List Expr}
    (h : Expr.Within width (.node k s as)) (h' : Expr.Within width (.node k' s' as'))
    (heq : b.encode width (.node k s as) = b.encode width (.node k' s' as')) :
    b.code s = b.code s' ∧
      List.Forall₂ (fun a a' => b.encode width a = b.encode width a') as as' := by
  rw [encode_node h, encode_node h'] at heq
  obtain ⟨hcode, hslots⟩ := Tree.node.inj heq
  have hmap := Tree.append_vacant_inj vacant_notMem_map_encode vacant_notMem_map_encode hslots
  rw [← List.forall₂_eq_eq_eq, List.forall₂_map_left_iff, List.forall₂_map_right_iff] at hmap
  exact ⟨hcode, hmap⟩

/-- Separate subterms with one code have one symbol and one kind. -/
theorem Separates.of_code (hsep : b.Separates es) {t t' : Expr} (ht : ∃ e ∈ es, t.IsSubterm e)
    (ht' : ∃ e ∈ es, t'.IsSubterm e) (hcode : b.code t.sym = b.code t'.sym) :
    t.sym = t'.sym ∧ t.kind = t'.kind :=
  have hsym := hsep.codes t t' ht ht' hcode
  ⟨hsym, hsep.kinds t t' ht ht' hsym⟩

/-- Separate terms have separate trees. -/
theorem encode_injective (hsep : b.Separates es) {e e' : Expr} (he : e.Within width)
    (he' : e'.Within width) (hmem : ∃ r ∈ es, e.IsSubterm r) (hmem' : ∃ r ∈ es, e'.IsSubterm r)
    (h : b.encode width e = b.encode width e') : e = e' := by
  induction e generalizing e' with
  | node k s as ih =>
    obtain ⟨k', s', as'⟩ := e'
    obtain ⟨hcode, hall⟩ := encode_node_inj he he' h
    obtain ⟨hs, hk⟩ : s = s' ∧ k = k' := hsep.of_code hmem hmem' hcode
    have hargs : as = as' := by
      obtain ⟨r, hr, hsub⟩ := hmem
      obtain ⟨r', hr', hsub'⟩ := hmem'
      refine List.forall₂_eq_eq_eq ▸ forall₂_imp_mem hall fun a ha a' ha' heq => ?_
      exact ih a ha (he.arg ha) (he'.arg ha') ⟨r, hr, hsub.arg ha⟩ ⟨r', hr', hsub'.arg ha'⟩ heq
    rw [hk, hs, hargs]

/-! ## Agreement of terms and of trees -/

/-- Encodings, with vacant slots behind them, are instances of patterns one by one: there is a slot
for every pattern, and no encoding is vacant. -/
theorem admitsAll_encode_iff {ρ : TreeAssignment} {n : Nat} {as bs : List Expr}
    (hargs : ∀ a ∈ as, a.WellFormed) :
    b.AdmitsAll ρ as (bs.map (b.encode width) ++ List.replicate n .vacant) ↔
      List.Forall₂ (fun a e => b.Admits ρ a (b.encode width e)) as bs := by
  induction as generalizing bs with
  | nil =>
    rw [List.forall₂_nil_left_iff, AdmitsAll]
    constructor
    · intro h
      refine List.eq_nil_iff_forall_not_mem.mpr fun e he => ?_
      exact encode_node_ne_vacant e (h _ (List.mem_append_left _ (List.mem_map_of_mem he)))
    · rintro rfl c hc
      exact (List.mem_replicate.mp hc).2
  | cons a as ih =>
    obtain ⟨ha, has⟩ := List.forall_mem_cons.mp hargs
    cases bs with
    | cons e bs => rw [List.map_cons, List.cons_append, AdmitsAll, ih has, List.forall₂_cons]
    | nil =>
      refine ⟨fun h => ?_, nofun⟩
      cases n with
      | zero => exact absurd h False.elim
      | succ n =>
        obtain ⟨_, _, hvacant⟩ := Admits.exists_node ha h.1
        exact absurd hvacant nofun

/-- The tree of a node is an instance of a pattern of another kind than a variable exactly if its
code is that of the pattern, and so are the trees of the children. -/
theorem admits_encode_iff {ρ : TreeAssignment} {k k' : Kind} {s s' : String} {as bs : List Expr}
    (hk : k ≠ .var) (hp : Expr.WellFormed (.node k s as))
    (he : Expr.Within width (.node k' s' bs)) :
    b.Admits ρ (.node k s as) (b.encode width (.node k' s' bs)) ↔
      b.code s' = b.code s ∧ List.Forall₂ (fun a e => b.Admits ρ a (b.encode width e)) as bs := by
  rw [admits_node_iff hk, encode_node he,
    ← admitsAll_encode_iff (n := width - bs.length) (Expr.wellFormed_node_iff.mp hp).2]
  constructor
  · rintro ⟨cs, hnode, hall⟩
    obtain ⟨hcode, rfl⟩ := Tree.node.inj hnode
    exact ⟨hcode, hall⟩
  · rintro ⟨hcode, hall⟩
    exact ⟨_, congrArg (Tree.node · _) hcode, hall⟩

/-- It is one of a variable exactly if it is assigned to it, and the tree of the first child is an
instance of the sort. -/
theorem admits_encode_var_iff {ρ : TreeAssignment} {k : Kind} {s s' : String} {sort : Expr}
    {bs : List Expr} (hsort : sort.WellFormed) (he : Expr.Within width (.node k s' bs)) :
    b.Admits ρ (.node .var s [sort]) (b.encode width (.node k s' bs)) ↔
      ρ s = some (b.encode width (.node k s' bs)) ∧
        ∃ c, bs.head? = some c ∧ b.Admits ρ sort (b.encode width c) := by
  rw [admits_var_iff, List.head?_eq_getElem?]
  refine and_congr_right fun _ => ⟨fun h => ?_, fun ⟨c, hc, h⟩ => by rwa [child_encode he hc]⟩
  cases hzero : bs[0]? with
  | some c =>
    rw [child_encode he hzero] at h
    exact ⟨c, rfl, h⟩
  | none =>
    obtain ⟨_, _, hnode⟩ := Admits.exists_node hsort h
    have hempty := isNode_child_encode (b := b) he hzero
    rw [hnode] at hempty
    exact absurd hempty nofun

/-- The tree of a term that agrees with a pattern is an instance of the pattern. -/
theorem admits_of_agrees {σ : Assignment} {p e : Expr} (hp : p.WellFormed) (hwf : e.WellFormed)
    (he : e.Within width) (h : Expr.Agrees σ p e) :
    b.Admits (fun n => (σ n).map (b.encode width)) p (b.encode width e) := by
  induction p generalizing e with
  | node k s as ih =>
    obtain ⟨k', s', bs⟩ := e
    by_cases hk : k = .var
    · subst hk
      obtain ⟨sort, rfl, -, hsort⟩ := hp.var_args
      obtain ⟨hs, esort, hesort, hagrees⟩ := h
      have hsub := Expr.isSubterm_sortOf? hesort
      refine (admits_encode_var_iff hsort he).mpr ⟨by rw [hs]; rfl, esort,
        (hwf.sortOf?_eq_some_iff.mp hesort).1, ?_⟩
      exact ih sort List.mem_cons_self hsort (hwf.subterm hsub) (he.subterm hsub) hagrees
    · obtain ⟨rfl, rfl, hall⟩ := (Expr.agrees_node_iff hk).mp h
      have hargs := (Expr.wellFormed_node_iff.mp hp).2
      have hbs := (Expr.wellFormed_node_iff.mp hwf).2
      refine (admits_encode_iff hk hp he).mpr ⟨rfl, forall₂_imp_mem hall fun a ha c hc hac => ?_⟩
      exact ih a ha (hargs a ha) (hbs c hc) (he.arg hc) hac

/-- Where symbols are separate, only the tree of a sort is an instance of a sort. -/
theorem isSort_of_admits {root t sort c : Expr} (hsep : b.Separates [root, t]) {ρ : TreeAssignment}
    (hissort : sort.isSort = true) (hwf : sort.WellFormed) (hsort : sort.IsSubterm root)
    (hc : c.IsSubterm t) (hwithin : c.Within width) (h : b.Admits ρ sort (b.encode width c)) :
    c.isSort = true := by
  obtain ⟨ks, ss, as⟩ := sort
  obtain ⟨kc, sc, bs⟩ := c
  have hks : ks = .sort := of_decide_eq_true hissort
  obtain ⟨hcode, -⟩ := (admits_encode_iff (by rw [hks]; nofun) hwf hwithin).mp h
  obtain ⟨-, hkind⟩ := hsep.of_code ⟨t, by simp, hc⟩ ⟨root, by simp, hsort⟩ hcode
  exact decide_eq_true (hkind.trans hks)

/-- A term whose tree is an instance of a pattern agrees with the pattern. -/
theorem agrees_of_admits {root t : Expr} (hsep : b.Separates [root, t]) {ρ : TreeAssignment}
    {σ : Assignment}
    (hσ : ∀ n ∈ root.varNames, ∀ e : Expr, e.IsSubterm t → ρ n = some (b.encode width e) →
      σ n = some e)
    {p e : Expr} (hp : p.WellFormed) (hroot : p.IsSubterm root) (hwf : e.WellFormed)
    (he : e.Within width) (het : e.IsSubterm t) (h : b.Admits ρ p (b.encode width e)) :
    Expr.Agrees σ p e := by
  induction p generalizing e with
  | node k s as ih =>
    obtain ⟨k', s', bs⟩ := e
    have hbs := (Expr.wellFormed_node_iff.mp hwf).2
    by_cases hk : k = .var
    · subst hk
      obtain ⟨sort, rfl, hissort, hsort⟩ := hp.var_args
      obtain ⟨hs, c, hhead, hadm⟩ := (admits_encode_var_iff hsort he).mp h
      have hc := List.mem_of_head? hhead
      have hsortroot := hroot.arg List.mem_cons_self
      -- the sort is told from a term by its symbol, which has one kind
      have hkind := isSort_of_admits hsep hissort hsort hsortroot (het.arg hc) (he.arg hc) hadm
      have hname := Expr.mem_varNames_iff.mpr ⟨_, hroot⟩
      exact ⟨hσ s hname _ het hs, c, hwf.sortOf?_eq_some_iff.mpr ⟨hhead, hkind⟩,
        ih sort List.mem_cons_self hsort hsortroot (hbs c hc) (he.arg hc) (het.arg hc) hadm⟩
    · obtain ⟨hcode, hall⟩ := (admits_encode_iff hk hp he).mp h
      have hargs := (Expr.wellFormed_node_iff.mp hp).2
      obtain ⟨hsym, hkind⟩ := hsep.of_code ⟨t, by simp, het⟩ ⟨root, by simp, hroot⟩ hcode
      refine (Expr.agrees_node_iff hk).mpr
        ⟨hkind.symm, hsym.symm, forall₂_imp_mem hall fun a ha c hc hac => ?_⟩
      exact ih a ha (hargs a ha) (hroot.arg ha) (hbs c hc) (he.arg hc) (het.arg hc) hac

end CodeBook

end SortedRewriting
