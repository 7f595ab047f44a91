import SortedRewriting.Engine.Pattern
import SortedRewriting.Proofs.Engine.Agreement
import SortedRewriting.Proofs.Expr.Classes
import SortedRewriting.Proofs.Symbolic.Building

/-!
# What a pattern test decides

* `yields_patternTest`: the term that `patternTest` builds means `patternHolds`, the conditions of
  all classes read off a tree.
* `patternHolds_iff`: these are conditions on the positions of the pattern (`NodeFits`), and equal
  subtrees at the positions of one subterm.
* **`patternHolds_iff_admits`**: on regular trees, for a pattern that uses each variable with one
  sort, the test holds exactly for the instances of the pattern.
-/

namespace SortedRewriting

open Build (Yields)
open Term (Reading)

/-! ## The value of a pattern test -/

/-- The conditions on the node at the first position of a class, read off a tree. -/
def nodeAnswers (b : CodeBook) (width : Nat) (pattern : Expr) (here : Tree) : List Bool :=
  if pattern.isVar then []
  else decide (here.tag = b.code pattern.sym) ::
    (List.range' pattern.args.length (width - pattern.args.length)).map fun slot =>
      (here.child slot).isVacant

/-- The conditions on the positions of a class, read off a tree. -/
def classAnswers (b : CodeBook) (width : Nat) (x : Tree) (c : Expr.SubtermClass) : List Bool :=
  nodeAnswers b width c.term (x.getAt c.representative) ++
    c.others.map fun p => decide (x.getAt p = x.getAt c.representative)

/-- Whether a tree passes the test of a pattern. -/
def patternHolds (b : CodeBook) (width : Nat) (x : Tree) (pattern : Expr) : Bool :=
  (pattern.classes.map (classAnswers b width x)).flatten.all id

variable {M : Term → Value → Prop} [Reading M] {b : CodeBook} {width : Nat}

/-- A list of conditions means a list of truth values. -/
abbrev MeanBools (M : Term → Value → Prop) : List Term → List Bool → Prop :=
  List.Forall₂ fun t v => M t (.bool v)

theorem yields_nodeConditions {pattern : Expr} {here : Term} {y : Tree}
    (h : M here (.tree y)) :
    Yields (nodeConditions b width pattern here)
      (MeanBools M · (nodeAnswers b width pattern y)) := by
  unfold nodeConditions nodeAnswers
  split
  · exact .pure .nil
  · refine (Build.yields_tagOf h).bind fun tag htag => ?_
    refine (Build.yields_int M _).bind fun code hcode => ?_
    refine (Build.yields_eq htag hcode rfl).bind fun test htest => ?_
    refine (Yields.mapM (R := fun slot t => M t (.bool (y.child slot).isVacant))
      fun slot _ => ?_).bind fun vacant hvacant => ?_
    · exact (Build.yields_select h slot).bind fun child hchild => Build.yields_test .vacant hchild
    · refine .pure (.cons ?_ ?_)
      · simpa using htest
      · exact List.forall₂_map_right_iff.mpr (hvacant.flip)

theorem yields_classConditions {x : Term} {X : Tree} (hx : M x (.tree X))
    (c : Expr.SubtermClass) :
    Yields (classConditions b width x c) (MeanBools M · (classAnswers b width X c)) := by
  unfold classConditions classAnswers
  refine (Build.yields_selectPath hx c.representative).bind fun here hhere => ?_
  refine (yields_nodeConditions hhere).bind fun node hnode => ?_
  refine (Yields.mapM (R := fun p t =>
    M t (.bool (decide (X.getAt p = X.getAt c.representative)))) fun p _ => ?_).bind
    fun equal hequal => .pure ?_
  · refine (Build.yields_selectPath hx p).bind fun there hthere => ?_
    exact (Build.yields_eq hthere hhere rfl).mono fun t ht => by simpa using ht
  · exact List.rel_append hnode (List.forall₂_map_right_iff.mpr hequal.flip)

/-- **The term that is built means the test.** -/
theorem yields_patternTest {x : Term} {X : Tree} (hx : M x (.tree X)) (pattern : Expr) :
    Yields (patternTest b width x pattern)
      (M · (.bool (patternHolds b width X pattern))) := by
  unfold patternTest patternHolds
  refine (Yields.mapM (R := fun c ts => MeanBools M ts (classAnswers b width X c))
    fun c _ => yields_classConditions hx c).bind fun conditions h => ?_
  exact Build.yields_all (List.rel_flatten (List.forall₂_map_right_iff.mpr h.flip))

/-! ## The conditions by position -/

/-- The tree has the tag of the node and nothing behind its children; a variable wants nothing. -/
def NodeFits (b : CodeBook) (width : Nat) (t : Expr) (y : Tree) : Prop :=
  t.isVar = false → y.tag = b.code t.sym ∧
    ∀ slot, t.args.length ≤ slot → slot < width → y.child slot = .vacant

theorem all_nodeAnswers_iff {t : Expr} {y : Tree} :
    (∀ a ∈ nodeAnswers b width t y, a = true) ↔ NodeFits b width t y := by
  unfold nodeAnswers NodeFits
  by_cases hv : t.isVar = true
  · simp [hv]
  · have hv : t.isVar = false := by simpa using hv
    simp only [hv, Bool.false_eq_true, if_false, List.mem_cons, List.mem_map, List.mem_range'_1]
    constructor
    · intro h _
      refine ⟨of_decide_eq_true (h _ (.inl rfl)), fun slot hlen hslot => ?_⟩
      exact Tree.isVacant_iff.mp (h _ (.inr ⟨slot, ⟨hlen, by omega⟩, rfl⟩))
    · intro h a ha
      obtain ⟨htag, hrest⟩ := h trivial
      rcases ha with rfl | ⟨slot, ⟨hlen, hslot⟩, rfl⟩
      · exact decide_eq_true htag
      · exact Tree.isVacant_iff.mpr (hrest slot hlen (by omega))

/-- The conditions of all classes, class by class. -/
theorem patternHolds_iff_classes {x : Tree} {p : Expr} : patternHolds b width x p = true ↔
    ∀ c ∈ p.classes, NodeFits b width c.term (x.getAt c.representative) ∧
      ∀ q ∈ c.positions, x.getAt q = x.getAt c.representative := by
  unfold patternHolds classAnswers
  simp only [List.all_eq_true, List.mem_flatten, List.mem_map, id_eq]
  constructor
  · intro h c hc
    have hc' : ∀ a ∈ _, a = true := fun a ha => h a ⟨_, ⟨c, hc, rfl⟩, ha⟩
    obtain ⟨hnode, hothers⟩ := List.forall_mem_append.mp hc'
    refine ⟨all_nodeAnswers_iff.mp hnode, List.forall_mem_cons.mpr ⟨rfl, fun q hq => ?_⟩⟩
    exact of_decide_eq_true (hothers _ (List.mem_map_of_mem hq))
  · rintro h a ⟨_, ⟨c, hc, rfl⟩, ha⟩
    obtain ⟨hnode, hequal⟩ := h c hc
    rcases List.mem_append.mp ha with ha | ha
    · exact all_nodeAnswers_iff.mpr hnode a ha
    · obtain ⟨q, hq, rfl⟩ := List.mem_map.mp ha
      exact decide_eq_true (hequal q (List.mem_cons_of_mem _ hq))

/-- **The conditions of all classes, by position.** -/
theorem patternHolds_iff {x : Tree} {p : Expr} : patternHolds b width x p = true ↔
    (∀ q t, p.subterm? q = some t → NodeFits b width t (x.getAt q)) ∧
      ∀ q q' t, p.subterm? q = some t → p.subterm? q' = some t → x.getAt q = x.getAt q' := by
  rw [patternHolds_iff_classes]
  constructor
  · intro h
    have hsame : ∀ q t, p.subterm? q = some t → ∃ c ∈ p.classes, c.term = t ∧
        x.getAt q = x.getAt c.representative := by
      intro q t hq
      obtain ⟨c, hc, rfl, hmem⟩ := Expr.mem_class_iff.mpr hq
      exact ⟨c, hc, rfl, (h c hc).2 q hmem⟩
    constructor
    · intro q t hq
      obtain ⟨c, hc, rfl, he⟩ := hsame q t hq
      rw [he]
      exact (h c hc).1
    · intro q q' t hq hq'
      obtain ⟨c, hc, rfl, he⟩ := hsame q t hq
      obtain ⟨c', hc', hterm, he'⟩ := hsame q' _ hq'
      rw [he, he', Expr.class_unique hc' hc hterm]
  · rintro ⟨hfits, hequal⟩ c hc
    have hpos : ∀ q ∈ c.positions, p.subterm? q = some c.term := fun q hq =>
      Expr.mem_class_iff.mp ⟨c, hc, rfl, hq⟩
    have hrep := hpos c.representative List.mem_cons_self
    exact ⟨hfits _ _ hrep, fun q hq => hequal _ _ _ (hpos q hq) hrep⟩

/-- There is a node wherever the pattern has a subterm: a slot of it is vacant, or holds a node. -/
theorem exists_node_of_fits {p : Expr} (hp : p.WellFormed) (hw : 1 ≤ width) {x : Tree}
    (hfits : ∀ q t, p.subterm? q = some t → NodeFits b width t (x.getAt q)) {t : Expr}
    {q : Position} (hq : p.subterm? q = some t) : ∃ code cs, x.getAt q = .node code cs := by
  induction t generalizing q with
  | node k s as ih =>
    have hfirst : (x.getAt q).child 0 ≠ .error := by
      cases as with
      | nil =>
        have hvar : (Expr.node k s []).isVar = false := by
          refine decide_eq_false fun hk => ?_
          subst hk
          obtain ⟨sort, hsort, -, -⟩ := (hp.subterm ⟨q, hq⟩).var_args
          exact absurd hsort nofun
        rw [(hfits q _ hq hvar).2 0 (Nat.le_refl _) hw]
        nofun
      | cons a as =>
        have hqa : p.subterm? (q ++ [0]) = some a :=
          Expr.subterm?_append hq (Expr.subterm?_cons_iff.mpr ⟨a, rfl, rfl⟩)
        obtain ⟨code, cs, hnode⟩ := ih a List.mem_cons_self hqa
        rw [← Tree.getAt_concat, hnode]
        nofun
    exact Tree.exists_node_of_child hfirst

/-! ## Instances -/

open Classical in
/-- The tree at a position where a variable of the pattern stands. -/
noncomputable def treeAtVar (p : Expr) (x : Tree) (name : String) : Option Tree :=
  if h : ∃ q as, p.subterm? q = some (.node .var name as) then some (x.getAt h.choose) else none

/-- A node that fits is an instance of the pattern if its children are instances of the children. -/
theorem admits_of_children {ρ : TreeAssignment} {k : Kind} {s : String} {as : List Expr} {y : Tree}
    (hk : k ≠ .var) (hy : y.Uniform width) (hnode : ∃ code cs, y = .node code cs)
    (hfits : NodeFits b width (.node k s as) y)
    (hargs : ∀ i a, as[i]? = some a → b.Admits ρ a (y.child i) ∧ a.WellFormed) :
    b.Admits ρ (.node k s as) y := by
  obtain ⟨code, cs, rfl⟩ := hnode
  obtain ⟨htag, hrest⟩ := hfits (decide_eq_false hk)
  have hslots : cs.length = width := by
    cases hy
    assumption
  refine (CodeBook.admits_node_iff hk).mpr ⟨cs, congrArg (Tree.node · cs) htag, ?_⟩
  refine CodeBook.admitsAll_iff.mpr ⟨fun i a ha => ?_, fun i c hlen hc => ?_⟩
  · obtain ⟨h, hwf⟩ := hargs i a ha
    obtain ⟨t', cs', hchild⟩ := h.exists_node hwf
    rw [Tree.child_node] at h hchild
    cases hc : cs[i]? with
    | none =>
      rw [hc] at hchild
      exact absurd hchild nofun
    | some c =>
      rw [hc] at h
      exact ⟨c, rfl, h⟩
  · obtain ⟨hi, -⟩ := List.getElem?_eq_some_iff.mp hc
    have hvacant := hrest i hlen (by omega)
    rwa [Tree.child_node, hc] at hvacant

/-- A tree that fits at every position of the pattern is an instance of it. -/
theorem admits_of_fits {p : Expr} (hp : p.WellFormed) (hs : SingleSorted [p]) (hw : 1 ≤ width)
    {x : Tree} (hx : x.Uniform width)
    (hfits : ∀ q t, p.subterm? q = some t → NodeFits b width t (x.getAt q))
    (hequal : ∀ q q' t, p.subterm? q = some t → p.subterm? q' = some t →
      x.getAt q = x.getAt q') {t : Expr} {q : Position} (hq : p.subterm? q = some t) :
    b.Admits (treeAtVar p x) t (x.getAt q) := by
  induction t generalizing q with
  | node k s as ih =>
    have hargs : ∀ i a, as[i]? = some a →
        b.Admits (treeAtVar p x) a ((x.getAt q).child i) ∧ a.WellFormed := by
      intro i a ha
      have hqa : p.subterm? (q ++ [i]) = some a :=
        Expr.subterm?_append hq (Expr.subterm?_cons_iff.mpr ⟨a, ha, rfl⟩)
      rw [← Tree.getAt_concat]
      exact ⟨ih a (List.mem_of_getElem? ha) hqa, hp.subterm ⟨_, hqa⟩⟩
    by_cases hk : k = .var
    · subst hk
      obtain ⟨sort, rfl, -, -⟩ := (hp.subterm ⟨q, hq⟩).var_args
      refine CodeBook.admits_var_iff.mpr ⟨?_, (hargs 0 sort rfl).1⟩
      have h : ∃ q as, p.subterm? q = some (.node .var s as) := ⟨q, _, hq⟩
      obtain ⟨as', hq'⟩ := h.choose_spec
      have hsort : as' = [sort] :=
        hs s as' [sort] ⟨p, by simp, _, hq'⟩ ⟨p, by simp, q, hq⟩
      rw [hsort] at hq'
      rw [treeAtVar, dif_pos h, hequal _ _ _ hq' hq]
    · exact admits_of_children hk (hx.getAt q) (exists_node_of_fits hp hw hfits hq) (hfits q _ hq)
        hargs

/-- An instance fits at every position of the pattern. -/
theorem nodeFits_of_admits {ρ : TreeAssignment} {t : Expr} {y : Tree} (hy : y.Uniform width)
    (h : b.Admits ρ t y) : NodeFits b width t y := by
  intro hv
  obtain ⟨k, s, as⟩ := t
  have hk : k ≠ .var := of_decide_eq_false hv
  obtain ⟨cs, rfl, hcs⟩ := (CodeBook.admits_node_iff hk).mp h
  refine ⟨rfl, fun slot hlen hslot => ?_⟩
  cases hy with
  | node slots _ =>
    have hi : slot < cs.length := by omega
    rw [Tree.child_node, List.getElem?_eq_getElem hi]
    exact (CodeBook.admitsAll_iff.mp hcs).2 slot _ hlen (List.getElem?_eq_getElem hi)

/-- **The test holds exactly for the instances of the pattern.** -/
theorem patternHolds_iff_admits {p : Expr} (hp : p.WellFormed) (hs : SingleSorted [p])
    (hw : 1 ≤ width) {x : Tree} (hx : x.Regular width) :
    patternHolds b width x p = true ↔ ∃ ρ, b.Admits ρ p x := by
  rw [patternHolds_iff]
  constructor
  · rintro ⟨hfits, hequal⟩
    exact ⟨_, admits_of_fits hp hs hw hx.uniform hfits hequal (Expr.subterm?_nil p)⟩
  · rintro ⟨ρ, h⟩
    have hreg : ∀ q t, p.subterm? q = some t → (x.getAt q).Regular width := by
      intro q t hq
      obtain ⟨_, _, hnode⟩ := (h.subterm hp hq).exists_node (hp.subterm ⟨q, hq⟩)
      exact hx.getAt (by rw [hnode]; nofun)
    refine ⟨fun q t hq => nodeFits_of_admits (hreg q t hq).uniform (h.subterm hp hq), ?_⟩
    intro q q' t hq hq'
    exact CodeBook.admits_unique (hreg q t hq) (hreg q' t hq') (h.subterm hp hq) (h.subterm hp hq')

end SortedRewriting
