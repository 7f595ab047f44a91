import SortedRewriting.CodeBook
import SortedRewriting.Proofs.Expr.Subterms
import SortedRewriting.Proofs.Tree.Shape

/-!
# Trees that are instances of a pattern

`CodeBook.Admits b ρ p x` says that the tree `x` is the pattern `p` with trees for its variables:
tags are codes of symbols, unused slots are vacant, and slot zero of the tree of a variable is an
instance of the variable's sort. `Expr.instantiate` computes such a tree.

* `CodeBook.Admits.exists_node`: an instance of a well-formed pattern is a node.
* `CodeBook.Admits.subterm`: the subtree at a position is an instance of the subterm there.
* **`CodeBook.instantiate_of_admits`**: a regular instance is the instantiation of the pattern.
* **`CodeBook.admits_instantiate`**: an instantiation without errors is an instance.
-/

namespace SortedRewriting

/-- Trees for the names of variables. -/
abbrev TreeAssignment := String → Option Tree

namespace Expr

mutual

/-- The tree of an expression: the assigned trees at the variables that have one, and elsewhere a
node with the tag that kind and symbol give it. -/
def instantiate (width : Nat) (tag : Kind → String → Int64) (ρ : TreeAssignment) : Expr → Tree
  | .node k s as =>
    match (if k = .var then ρ s else none) with
    | some x => x
    | none => .build (tag k s) (instantiateAll width tag ρ as) width

/-- The trees of a list of expressions. -/
def instantiateAll (width : Nat) (tag : Kind → String → Int64) (ρ : TreeAssignment) :
    List Expr → List Tree
  | [] => []
  | a :: as => instantiate width tag ρ a :: instantiateAll width tag ρ as

end

@[simp] theorem instantiateAll_eq_map (width : Nat) (tag : Kind → String → Int64)
    (ρ : TreeAssignment) (as : List Expr) :
    instantiateAll width tag ρ as = as.map (instantiate width tag ρ) := by
  induction as with
  | nil => rfl
  | cons a as ih => rw [instantiateAll, ih, List.map_cons]

end Expr

namespace CodeBook

/-- The tag of a node: a fresh code of the step for a variable that is introduced, and otherwise the
code of the symbol. -/
def freshTag (b : CodeBook) (introduced : List String) (step : Int64) (kind : Kind)
    (sym : String) : Int64 :=
  match (if kind = .var then introduced.idxOf? sym else none) with
  | some i => b.freshCode step (i + 1)
  | none => b.code sym

theorem freshTag_of_ne {b : CodeBook} {introduced : List String} {step : Int64} {kind : Kind}
    {sym : String} (h : kind ≠ .var) : b.freshTag introduced step kind sym = b.code sym := by
  rw [freshTag, if_neg h]

mutual

/-- The tree is the pattern with the assigned trees at its variables. -/
def Admits (b : CodeBook) (ρ : TreeAssignment) : Expr → Tree → Prop
  | .node k s as, x =>
    if k = .var then ρ s = some x ∧ AdmitsSort b ρ as (x.child 0)
    else ∃ cs, x = .node (b.code s) cs ∧ AdmitsAll b ρ as cs

/-- The tree in slot zero is an instance of the sort of a variable. -/
def AdmitsSort (b : CodeBook) (ρ : TreeAssignment) : List Expr → Tree → Prop
  | [], _ => True
  | a :: _, x => Admits b ρ a x

/-- The first slots are instances of the children, and the others are vacant. -/
def AdmitsAll (b : CodeBook) (ρ : TreeAssignment) : List Expr → List Tree → Prop
  | [], cs => ∀ c ∈ cs, c = .vacant
  | a :: as, c :: cs => Admits b ρ a c ∧ AdmitsAll b ρ as cs
  | _ :: _, [] => False

end

variable {b : CodeBook} {ρ : TreeAssignment}

theorem admits_var_iff {s : String} {sort : Expr} {x : Tree} :
    Admits b ρ (.node .var s [sort]) x ↔ ρ s = some x ∧ Admits b ρ sort (x.child 0) := by
  rw [Admits, if_pos rfl, AdmitsSort]

theorem admits_node_iff {k : Kind} (hk : k ≠ .var) {s : String} {as : List Expr} {x : Tree} :
    Admits b ρ (.node k s as) x ↔ ∃ cs, x = .node (b.code s) cs ∧ AdmitsAll b ρ as cs := by
  rw [Admits, if_neg hk]

/-- Slot by slot. -/
theorem admitsAll_iff {as : List Expr} {cs : List Tree} :
    AdmitsAll b ρ as cs ↔ (∀ (i : Nat) a, as[i]? = some a → ∃ c, cs[i]? = some c ∧ Admits b ρ a c) ∧
      ∀ (i : Nat) c, as.length ≤ i → cs[i]? = some c → c = .vacant := by
  induction as generalizing cs with
  | nil =>
    unfold AdmitsAll
    constructor
    · exact fun h => ⟨by simp, fun i c _ hc => h c (List.mem_of_getElem? hc)⟩
    · rintro ⟨-, h⟩ c hc
      obtain ⟨i, hi⟩ := List.mem_iff_getElem?.mp hc
      exact h i c (Nat.zero_le i) hi
  | cons a as ih =>
    cases cs with
    | nil =>
      unfold AdmitsAll
      refine ⟨False.elim, fun h => ?_⟩
      obtain ⟨c, hc, -⟩ := h.1 0 a rfl
      exact absurd hc nofun
    | cons c cs =>
      unfold AdmitsAll
      rw [ih]
      constructor
      · rintro ⟨ha, hargs, hrest⟩
        constructor
        · intro i a' hi
          cases i with
          | zero =>
            cases hi
            exact ⟨c, rfl, ha⟩
          | succ i => exact hargs i a' hi
        · intro i c' hlen hi
          cases i with
          | zero => exact absurd hlen (by simp)
          | succ i => exact hrest i c' (Nat.le_of_succ_le_succ hlen) hi
      · rintro ⟨hargs, hrest⟩
        refine ⟨?_, fun i a' hi => hargs (i + 1) a' hi,
          fun i c' hlen hi => hrest (i + 1) c' (Nat.succ_le_succ hlen) hi⟩
        obtain ⟨c', hc', ha⟩ := hargs 0 a rfl
        cases hc'
        exact ha

/-- An instance of a well-formed pattern is a node. -/
theorem Admits.exists_node {p : Expr} (hp : p.WellFormed) {x : Tree} (h : Admits b ρ p x) :
    ∃ t cs, x = .node t cs := by
  induction p generalizing x with
  | node k s as ih =>
    by_cases hk : k = .var
    · subst hk
      obtain ⟨sort, rfl, -, hsort⟩ := hp.var_args
      obtain ⟨t, cs, hchild⟩ :=
        ih sort List.mem_cons_self hsort (admits_var_iff.mp h).2
      exact Tree.exists_node_of_child (i := 0) (by rw [hchild]; nofun)
    · obtain ⟨cs, hx, -⟩ := (admits_node_iff hk).mp h
      exact ⟨_, cs, hx⟩

/-- The subtree at a position is an instance of the subterm there. -/
theorem Admits.subterm {p t : Expr} (hp : p.WellFormed) {x : Tree} (h : Admits b ρ p x)
    {q : Position} (hq : p.subterm? q = some t) : Admits b ρ t (x.getAt q) := by
  induction q generalizing p x with
  | nil =>
    cases hq
    exact h
  | cons i q ih =>
    obtain ⟨k, s, as⟩ := p
    obtain ⟨a, ha, hq⟩ := Expr.subterm?_cons_iff.mp hq
    have hwf := (Expr.wellFormed_node_iff.mp hp).2 a (List.mem_of_getElem? ha)
    refine ih hwf ?_ hq
    by_cases hk : k = .var
    · subst hk
      obtain ⟨sort, rfl, -, -⟩ := hp.var_args
      cases i with
      | zero =>
        cases ha
        exact (admits_var_iff.mp h).2
      | succ i => exact absurd ha nofun
    · obtain ⟨cs, rfl, hcs⟩ := (admits_node_iff hk).mp h
      obtain ⟨c, hc, hac⟩ := (admitsAll_iff.mp hcs).1 i a ha
      rw [Tree.child_node, hc]
      exact hac

/-- An instance under one assignment is one under any other that has its trees for the variables of
the pattern. -/
theorem Admits.mono {ρ' : TreeAssignment} {p : Expr} (hp : p.WellFormed) {x : Tree}
    (h : Admits b ρ p x) (hρ : ∀ name ∈ p.varNames, ∀ y, ρ name = some y → ρ' name = some y) :
    Admits b ρ' p x := by
  induction p generalizing x with
  | node k s as ih =>
    have hargs : ∀ a ∈ as, ∀ y, Admits b ρ a y → Admits b ρ' a y := fun a ha y hy =>
      ih a ha ((Expr.wellFormed_node_iff.mp hp).2 a ha) hy fun name hname =>
        hρ name (Expr.varNames_subset (Expr.isSubterm_arg ha) hname)
    by_cases hk : k = .var
    · subst hk
      obtain ⟨sort, rfl, -, -⟩ := hp.var_args
      obtain ⟨hs, hsort⟩ := admits_var_iff.mp h
      have hmem : s ∈ (Expr.node .var s [sort]).varNames := Expr.mem_varNames_iff.mpr ⟨_, .refl _⟩
      exact admits_var_iff.mpr ⟨hρ s hmem x hs, hargs sort List.mem_cons_self _ hsort⟩
    · obtain ⟨cs, rfl, hcs⟩ := (admits_node_iff hk).mp h
      obtain ⟨hslots, hrest⟩ := admitsAll_iff.mp hcs
      refine (admits_node_iff hk).mpr ⟨cs, rfl, admitsAll_iff.mpr ⟨fun i a ha => ?_, hrest⟩⟩
      obtain ⟨c, hc, hac⟩ := hslots i a ha
      exact ⟨c, hc, hargs a (List.mem_of_getElem? ha) c hac⟩

/-- **A regular instance is the instantiation of the pattern.** -/
theorem instantiate_of_admits {width : Nat} {tag : Kind → String → Int64}
    (htag : ∀ k s, k ≠ .var → tag k s = b.code s) {p : Expr} {x : Tree} (hx : x.Regular width)
    (h : Admits b ρ p x) : p.instantiate width tag ρ = x := by
  induction p generalizing x with
  | node k s as ih =>
    by_cases hk : k = .var
    · rw [Admits, if_pos hk] at h
      rw [Expr.instantiate, if_pos hk, h.1]
    · obtain ⟨cs, rfl, hcs⟩ := (admits_node_iff hk).mp h
      obtain ⟨hargs, hrest⟩ := admitsAll_iff.mp hcs
      cases hx with
      | node slots children =>
        have hinst : ∀ i (hi : i < as.length), cs[i]? = some (as[i].instantiate width tag ρ) := by
          intro i hi
          obtain ⟨c, hc, hac⟩ := hargs i as[i] (List.getElem?_eq_getElem hi)
          rw [hc, ih as[i] (List.getElem_mem hi) (children c (List.mem_of_getElem? hc)) hac]
        rw [Expr.instantiate, if_neg hk, htag k s hk, Expr.instantiateAll_eq_map]
        subst slots
        refine Tree.build_eq_of_slots ?_ ?_ ?_ ?_
        · intro he
          obtain ⟨a, ha, he⟩ := List.mem_map.mp he
          obtain ⟨i, hi, rfl⟩ := List.getElem_of_mem ha
          exact (children _ (List.mem_of_getElem? (hinst i hi))).ne_error he
        · rw [List.length_map]
          refine Nat.le_of_not_lt fun hlt => ?_
          have hi := hinst cs.length hlt
          rw [List.getElem?_eq_none (Nat.le_refl _)] at hi
          exact absurd hi nofun
        · intro i hi
          rw [List.getElem_map]
          exact hinst i (by simpa using hi)
        · intro i hlen hi
          rw [List.getElem?_eq_getElem hi]
          rw [List.length_map] at hlen
          exact congrArg some (hrest i _ hlen (List.getElem?_eq_getElem hi))

/-- A node that is built from instances of the children is an instance of the node. -/
theorem admits_build {width : Nat} {k : Kind} (hk : k ≠ .var) {s : String} {as : List Expr}
    {f : Expr → Tree} (hlen : as.length ≤ width) (has : ∀ a ∈ as, Admits b ρ a (f a))
    (hne : Tree.error ∉ as.map f) :
    Admits b ρ (.node k s as) (.build (b.code s) (as.map f) width) := by
  rw [Tree.build_eq_node (by rwa [List.length_map]) hne]
  refine (admits_node_iff hk).mpr ⟨_, rfl, admitsAll_iff.mpr ⟨fun i a ha => ?_, fun i c hi hc => ?_⟩⟩
  · obtain ⟨hi, -⟩ := List.getElem?_eq_some_iff.mp ha
    refine ⟨f a, ?_, has a (List.mem_of_getElem? ha)⟩
    rw [List.getElem?_append_left (by simpa using hi), List.getElem?_map, ha]
    rfl
  · rw [List.getElem?_append_right (by simpa using hi)] at hc
    exact (List.mem_replicate.mp (List.mem_of_getElem? hc)).2

/-- **An instantiation is an instance**, if the assigned trees have the sorts of their variables,
and if the other variables are assigned the trees that are made for them. -/
theorem admits_instantiate {width : Nat} {tag : Kind → String → Int64}
    (htag : ∀ k s, k ≠ .var → tag k s = b.code s) {ρ' : TreeAssignment} {root : Expr}
    (hsort : ∀ name sort x, Expr.IsSubterm (.node .var name [sort]) root → ρ name = some x →
      Admits b ρ' sort (x.child 0))
    (hρ' : ∀ name sort, Expr.IsSubterm (.node .var name [sort]) root →
      ρ' name = some ((Expr.node .var name [sort]).instantiate width tag ρ))
    {e : Expr} (he : e.WellFormed) (hroot : e.IsSubterm root)
    (hne : e.instantiate width tag ρ ≠ .error) : Admits b ρ' e (e.instantiate width tag ρ) := by
  induction e with
  | node k s as ih =>
    have hargs : ∀ a ∈ as, a.instantiate width tag ρ ≠ .error →
        Admits b ρ' a (a.instantiate width tag ρ) := fun a ha =>
      ih a ha ((Expr.wellFormed_node_iff.mp he).2 a ha) (hroot.arg ha)
    by_cases hk : k = .var
    · subst hk
      obtain ⟨sort, rfl, -, -⟩ := he.var_args
      refine admits_var_iff.mpr ⟨hρ' s sort hroot, ?_⟩
      rw [Expr.instantiate, if_pos rfl] at hne ⊢
      cases hs : ρ s with
      | some x => exact hsort s sort x hroot hs
      | none =>
        rw [hs] at hne
        simp only [Expr.instantiateAll_eq_map, List.map_cons, List.map_nil] at hne ⊢
        obtain ⟨hlen, hcs⟩ := Tree.build_ne_error hne
        have hwidth : 0 < width := hlen
        rw [Tree.child_build hne, if_pos hwidth]
        exact hargs sort List.mem_cons_self fun herror => hcs (by rw [herror]; exact .head _)
    · rw [Expr.instantiate, if_neg hk, Expr.instantiateAll_eq_map] at hne ⊢
      obtain ⟨hlen, hcs⟩ := Tree.build_ne_error hne
      rw [htag k s hk]
      refine admits_build hk (by rwa [List.length_map] at hlen) (fun a ha => ?_) hcs
      exact hargs a ha fun herror => hcs (herror ▸ List.mem_map_of_mem ha)

/-- The trees of an assignment are unique to it. -/
theorem admits_unique {width : Nat} {p : Expr} {x y : Tree} (hx : x.Regular width)
    (hy : y.Regular width) (h : Admits b ρ p x) (h' : Admits b ρ p y) : x = y := by
  have htag : ∀ (k : Kind) s, k ≠ .var → b.freshTag [] 0 k s = b.code s := fun _ _ => freshTag_of_ne
  rw [← instantiate_of_admits htag hx h, instantiate_of_admits htag hy h']

end CodeBook

end SortedRewriting
