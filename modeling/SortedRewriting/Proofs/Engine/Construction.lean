import SortedRewriting.Engine.Construction
import SortedRewriting.Proofs.Engine.Pattern

/-!
# What a construction makes

`Expr.constructed` reads off a tree what a construction builds: the subtree at the position on
record for what the source has, and a node for what it lacks.

* `Construction.yields_construct`: the term that `construct` builds means that tree, whatever is
  shared and whatever digests coincide.
* **`constructed_eq_of_getAt`**, `constructed_eq_instantiate`: from an instance of the source,
  without a collision of digests and with one sort for each variable, the tree is the instantiation
  of the target.
* `constructed_eq_encode`: without a source it is the encoding of the target.
-/

namespace SortedRewriting

open Build (Yields)
open Term (Reading)

/-- The position from which a subterm is taken: the one on record for its digest, if the same
subterm stands there. -/
def Expr.position? (source e : Expr) : Option Position :=
  match source.representatives[e.digest]? with
  | some p => if source.subterm? p = some e then some p else none
  | none => none

namespace Expr

mutual

/-- The tree that is constructed for a target, where `x` matches the source and new nodes get the
tags that kind and symbol give them. -/
def constructed (width : Nat) (tag : Kind → String → Int64) (source? : Option Expr) (x : Tree) :
    Expr → Tree
  | .node k s as =>
    match source?.bind (·.position? (.node k s as)) with
    | some p => x.getAt p
    | none => .build (tag k s) (constructedAll width tag source? x as) width

/-- The trees of a list of targets. -/
def constructedAll (width : Nat) (tag : Kind → String → Int64) (source? : Option Expr) (x : Tree) :
    List Expr → List Tree
  | [] => []
  | a :: as => constructed width tag source? x a :: constructedAll width tag source? x as

end

@[simp] theorem constructedAll_eq_map (width : Nat) (tag : Kind → String → Int64)
    (source? : Option Expr) (x : Tree) (as : List Expr) :
    constructedAll width tag source? x as = as.map (constructed width tag source? x) := by
  induction as with
  | nil => rfl
  | cons a as ih => rw [constructedAll, ih, List.map_cons]

end Expr

/-! ## The meaning of what is built -/

namespace Construction

/-- Every term on record means the value of its subterm. -/
def Recorded (M : Term → Value → Prop) (value : Expr → Tree) (built : Built) : Prop :=
  ∀ (d : Digest) e t, built[d]? = some (e, t) → M t (.tree (value e))

/-- Keeps the record and yields something with a property. -/
def Keeps {α : Type} (M : Term → Value → Prop) (value : Expr → Tree) (y : StateT Built Build α)
    (P : α → Prop) : Prop :=
  ∀ built, Recorded M value built → Yields (y built) fun r => P r.1 ∧ Recorded M value r.2

section Keeps

variable {M : Term → Value → Prop} {value : Expr → Tree} {α β : Type} {P : α → Prop} {Q : β → Prop}

theorem Keeps.pure {a : α} (h : P a) : Keeps M value (Pure.pure a) P :=
  fun _ hbuilt => Yields.pure ⟨h, hbuilt⟩

theorem Keeps.lift {y : Build α} (h : Yields y P) : Keeps M value (liftM y) P := by
  intro built hbuilt
  show Yields (y >>= fun a => Pure.pure (a, built)) _
  exact h.bind fun _ ha => .pure ⟨ha, hbuilt⟩

theorem Keeps.bind {y : StateT Built Build α} {f : α → StateT Built Build β}
    (hy : Keeps M value y P) (hf : ∀ a, P a → Keeps M value (f a) Q) :
    Keeps M value (y >>= f) Q :=
  fun built hbuilt => (hy built hbuilt).bind fun r hr => hf r.1 hr.1 r.2 hr.2

/-- A subterm under a digest that is on record is taken from there only if it is the same. -/
theorem share_of_recorded {target e : Expr} {t : Term} {y : StateT Built Build Term} {built : Built}
    (h : built[target.digest]? = some (e, t)) : Construction.share target y built =
      if e = target then Pure.pure (t, built) else y built := by
  unfold Construction.share
  show StateT.bind StateT.get _ built = _
  simp only [StateT.bind, StateT.get, pure_bind, h]
  split <;> rfl

/-- A subterm under a new digest is built and put on record. -/
theorem share_of_new {target : Expr} {y : StateT Built Build Term} {built : Built}
    (h : built[target.digest]? = none) : Construction.share target y built =
      y built >>= fun r => Pure.pure (r.1, r.2.insert target.digest (target, r.1)) := by
  unfold Construction.share
  show StateT.bind StateT.get _ built = _
  simp only [StateT.bind, StateT.get, pure_bind, h]
  rfl

/-- A subterm is taken from the record only if it is the same; otherwise it is built. -/
theorem Keeps.share {target : Expr} {y : StateT Built Build Term}
    (hy : Keeps M value y (M · (.tree (value target)))) :
    Keeps M value (Construction.share target y) (M · (.tree (value target))) := by
  intro built hbuilt
  cases hd : built[target.digest]? with
  | some r =>
    obtain ⟨e, t⟩ := r
    rw [share_of_recorded hd]
    split
    · rename_i he
      exact .pure ⟨he ▸ hbuilt _ _ _ hd, hbuilt⟩
    · exact hy built hbuilt
  | none =>
    rw [share_of_new hd]
    refine (hy built hbuilt).bind fun r ⟨ht, hr⟩ => .pure ⟨ht, fun d e t h => ?_⟩
    rw [Std.ExtTreeMap.getElem?_insert] at h
    split at h
    · cases h
      exact ht
    · exact hr d e t h

end Keeps

variable {M : Term → Value → Prop} {book : CodeBook} {width : Nat} {target : Expr}
  {source? : Option Source} {x : Tree} {stepTerm : Term} {step : Int64}

/-- What a construction takes from the source, and where. -/
theorem reference?_start (e : Expr) : (start book width target source? stepTerm).reference? e =
    source?.bind fun source => (source.expr.position? e).map (source.tree, ·) := by
  cases source? with
  | none => rfl
  | some source =>
    simp only [reference?, start, Option.bind_some, Expr.position?]
    cases source.expr.representatives[e.digest]? with
    | none => rfl
    | some p =>
      show (if source.expr.subterm? p = some e then some (source.tree, p) else none) =
        (if source.expr.subterm? p = some e then some p else none).map (source.tree, ·)
      split <;> rfl

/-- The variables that the target introduces. -/
def introducedBy (target : Expr) (source? : Option Expr) : List String :=
  match source? with
  | some source => target.varsOutside source
  | none => []

theorem introduced_start : (start book width target source? stepTerm).introduced =
    introducedBy target (source?.map (·.expr)) := by
  cases source? <;> rfl

/-- The tag of an introduced variable is its fresh code, computed in wrapping arithmetic. -/
theorem yields_tag [Reading M] (c : Construction) (hstep : M c.step (.int step)) (k : Kind)
    (s : String) :
    Yields (c.tag k s) (M · (.int (c.book.freshTag c.introduced step k s))) := by
  unfold tag CodeBook.freshTag
  cases (if k = .var then c.introduced.idxOf? s else none) with
  | none => exact Build.yields_int M _
  | some i =>
    refine (Build.yields_int M _).bind fun stride hstride => ?_
    refine (Build.yields_mul hstride hstep).bind fun scaled hscaled => ?_
    refine (Build.yields_int M _).bind fun index hindex => ?_
    refine (Build.yields_add hscaled hindex).mono fun t ht => ?_
    have hcode : -Int64.ofNat c.book.stride * step + -Int64.ofNat (i + 1) =
        c.book.freshCode step (i + 1) := by
      unfold CodeBook.freshCode
      grind
    rw [hcode] at ht
    exact ht

/-- The tree that the construction of a target makes for a subterm. -/
abbrev made (book : CodeBook) (width : Nat) (target : Expr) (source? : Option Source) (x : Tree)
    (step : Int64) : Expr → Tree :=
  Expr.constructed width (book.freshTag (introducedBy target (source?.map (·.expr))) step)
    (source?.map (·.expr)) x

mutual

/-- What is built for a subterm means its tree. -/
theorem keeps_term [Reading M] (hstep : M stepTerm (.int step))
    (hsource : ∀ source, source? = some source → M source.tree (.tree x)) :
    (e : Expr) → Keeps M (made book width target source? x step)
      ((start book width target source? stepTerm).term e)
      (M · (.tree (made book width target source? x step e)))
  | .node k s as => by
    unfold term
    rw [reference?_start]
    have hposition : (source?.map (·.expr)).bind (·.position? (.node k s as)) =
        source?.bind (·.expr.position? (.node k s as)) := by
      cases source? <;> rfl
    cases hp : source?.bind (·.expr.position? (.node k s as)) with
    | some p =>
      obtain ⟨source, rfl, hp'⟩ := Option.bind_eq_some_iff.mp hp
      rw [made, Expr.constructed, hposition, hp]
      simp only [Option.bind_some, hp', Option.map_some]
      exact .lift (Build.yields_selectPath (hsource source rfl) p)
    | none =>
      have href : (source?.bind fun source =>
          (source.expr.position? (.node k s as)).map (source.tree, ·)) = none := by
        cases source? with
        | none => rfl
        | some source =>
          rw [Option.bind_some] at hp
          simp [hp]
      rw [href]
      refine Keeps.share ?_
      refine (Keeps.lift (yields_tag _ hstep k s)).bind fun tag htag => ?_
      refine (keeps_terms hstep hsource as).bind fun children hchildren => ?_
      rw [introduced_start] at htag
      rw [made, Expr.constructed, hposition, hp, Expr.constructedAll_eq_map]
      exact .lift (Build.yields_node htag (List.forall₂_map_right_iff.mpr hchildren) width)

theorem keeps_terms [Reading M] (hstep : M stepTerm (.int step))
    (hsource : ∀ source, source? = some source → M source.tree (.tree x)) :
    (es : List Expr) → Keeps M (made book width target source? x step)
      ((start book width target source? stepTerm).terms es)
      (List.Forall₂ (fun t e => M t (.tree (made book width target source? x step e))) · es)
  | [] => by
    unfold terms
    exact .pure .nil
  | a :: as => by
    unfold terms
    exact (keeps_term hstep hsource a).bind fun t ht =>
      (keeps_terms hstep hsource as).bind fun ts hts => .pure (.cons ht hts)

end

/-- **The term that is built means the constructed tree.** -/
theorem yields_construct [Reading M] (hstep : M stepTerm (.int step))
    (hsource : ∀ source, source? = some source → M source.tree (.tree x)) :
    Yields (construct book width target source? stepTerm)
      (M · (.tree (made book width target source? x step target))) := by
  have hempty : Recorded M (made book width target source? x step) ∅ :=
    fun d e t h => by simp at h
  exact (keeps_term hstep hsource target ∅ hempty).bind fun r hr => .pure hr.1

end Construction

/-! ## Constructed trees and instantiations -/

/-- No two distinct subterms of the expression have one digest. -/
def Expr.DistinctDigests (e : Expr) : Prop :=
  ∀ t t' : Expr, t.IsSubterm e → t'.IsSubterm e → t.digest = t'.digest → t = t'

theorem Expr.distinctDigests_iff {e : Expr} : e.DistinctDigests ↔
    ∀ t ∈ subtermsOf [e], ∀ t' ∈ subtermsOf [e], t.digest = t'.digest → t = t' := by
  simp only [← forall_isSubterm_iff]
  exact ⟨fun h t ht t' ht' => h t t' ht ht', fun h t t' ht ht' => h t ht t' ht'⟩

instance (e : Expr) : Decidable e.DistinctDigests := decidable_of_iff _ Expr.distinctDigests_iff.symm

theorem Expr.position?_eq_some {source e : Expr} {p : Position}
    (h : source.position? e = some p) : source.subterm? p = some e := by
  unfold position? at h
  split at h
  · split at h
    · rename_i hq
      cases h
      exact hq
    · exact absurd h nofun
  · exact absurd h nofun

/-- Where digests are distinct, every subterm of the source has a position on record. -/
theorem Expr.position?_eq_none {source e : Expr} (h : source.position? e = none)
    (hdig : source.DistinctDigests) : ¬ e.IsSubterm source := by
  intro hsub
  obtain ⟨p, hp⟩ := exists_representative hsub
  obtain ⟨t, ht, hd⟩ := representative_sound hp
  cases hdig t e ⟨p, ht⟩ hsub hd
  rw [position?, hp] at h
  simp only [ht, if_true] at h
  exact absurd h nofun

variable {b : CodeBook} {width : Nat} {x : Tree}

/-- What holds of the subtrees that are taken and of the nodes that are built, each for its
expression, holds of every constructed tree but an error. -/
theorem constructed_induction {P : Expr → Tree → Prop} {tag : Kind → String → Int64}
    {source? : Option Expr}
    (hbuild : ∀ k s as, (∀ a ∈ as, P a (a.constructed width tag source? x)) →
      Tree.build (tag k s) (as.map (Expr.constructed width tag source? x)) width ≠ .error →
      P (.node k s as) (.build (tag k s) (as.map (Expr.constructed width tag source? x)) width))
    (htaken : ∀ source, source? = some source → ∀ p t, source.subterm? p = some t →
      P t (x.getAt p))
    {e : Expr} (h : e.constructed width tag source? x ≠ .error) :
    P e (e.constructed width tag source? x) := by
  induction e with
  | node k s as ih =>
    rw [Expr.constructed] at h ⊢
    cases hp : source?.bind (·.position? (.node k s as)) with
    | some p =>
      obtain ⟨source, hsource, hp⟩ := Option.bind_eq_some_iff.mp hp
      exact htaken source hsource p _ (Expr.position?_eq_some hp)
    | none =>
      rw [hp] at h
      rw [Expr.constructedAll_eq_map] at h ⊢
      refine hbuild k s as (fun a ha => ih a ha fun herror => ?_) h
      exact (Tree.build_ne_error h).2 (herror ▸ List.mem_map_of_mem ha)

/-- A property of subtrees that are taken, and of nodes that are built from trees with the property,
holds of every constructed tree but an error. -/
theorem constructed_property {P : Tree → Prop} {tag : Kind → String → Int64} {source? : Option Expr}
    (hbuild : ∀ t cs, (∀ c ∈ cs, P c) → Tree.build t cs width ≠ .error → P (.build t cs width))
    (htaken : ∀ source, source? = some source → ∀ p t, source.subterm? p = some t → P (x.getAt p))
    {e : Expr} (h : e.constructed width tag source? x ≠ .error) :
    P (e.constructed width tag source? x) := by
  refine constructed_induction (P := fun _ y => P y) (fun k s as has => ?_) htaken h
  exact hbuild _ _ (List.forall_mem_map.mpr has)

/-- Where nothing is introduced, tags are codes of symbols. -/
theorem freshTag_nil (step : Int64) (k : Kind) (s : String) : b.freshTag [] step k s = b.code s := by
  unfold CodeBook.freshTag
  split
  · rename_i h
    simp at h
  · rfl

/-- Without a source the constructed tree is the encoding. -/
theorem constructed_eq_encode (step : Int64) (e : Expr) :
    e.constructed width (b.freshTag [] step) none x = b.encode width e := by
  induction e with
  | node k s as ih =>
    rw [CodeBook.encode, CodeBook.encodeAll_eq_map, ← List.map_congr_left ih, ← freshTag_nil step k s,
      ← Expr.constructedAll_eq_map]
    rfl

/-- **Where the tree holds the instantiations of the subterms of the source, the constructed tree is
the instantiation of the target.** -/
theorem constructed_eq_of_getAt {source target : Expr} {ρ : TreeAssignment}
    {tag : Kind → String → Int64}
    (hx : ∀ q t, source.subterm? q = some t → x.getAt q = t.instantiate width tag ρ)
    (hρ : ∀ name, name ∉ source.varNames → ρ name = none)
    (hs : SingleSorted [source, target]) (hdig : source.DistinctDigests) {e : Expr}
    (he : e.IsSubterm target) :
    e.constructed width tag (some source) x = e.instantiate width tag ρ := by
  induction e with
  | node k s as ih =>
    have hargs : as.map (Expr.constructed width tag (some source) x) =
        as.map (Expr.instantiate width tag ρ) :=
      List.map_congr_left fun a ha => ih a ha (he.arg ha)
    rw [Expr.constructed, Option.bind_some]
    cases hp : source.position? (.node k s as) with
    | some p => exact hx p _ (Expr.position?_eq_some hp)
    | none =>
      have hnew := Expr.position?_eq_none hp hdig
      -- a variable of the source would stand there with this very sort
      have hfree : (if k = .var then ρ s else none) = none := by
        split
        · rename_i hk
          subst hk
          refine hρ s fun hmem => hnew ?_
          obtain ⟨as', has'⟩ := Expr.mem_varNames_iff.mp hmem
          rw [hs s as as' ⟨target, by simp, he⟩ ⟨source, by simp, has'⟩]
          exact has'
        · rfl
      rw [Expr.instantiate, hfree, Expr.constructedAll_eq_map, Expr.instantiateAll_eq_map, hargs]

/-- From a regular instance of the source, the constructed tree is the instantiation of the target. -/
theorem constructed_eq_instantiate {source target : Expr} (hwf : source.WellFormed)
    {ρ : TreeAssignment} (hx : x.Regular width) (h : b.Admits ρ source x)
    (hρ : ∀ name, name ∉ source.varNames → ρ name = none)
    (hs : SingleSorted [source, target]) (hdig : source.DistinctDigests)
    {tag : Kind → String → Int64} (htag : ∀ k s, k ≠ .var → tag k s = b.code s)
    {e : Expr} (he : e.IsSubterm target) :
    e.constructed width tag (some source) x = e.instantiate width tag ρ := by
  refine constructed_eq_of_getAt (fun q t hq => ?_) hρ hs hdig he
  have hadm := h.subterm hwf hq
  obtain ⟨_, _, hnode⟩ := hadm.exists_node (hwf.subterm ⟨q, hq⟩)
  exact (CodeBook.instantiate_of_admits htag (hx.getAt (by rw [hnode]; nofun)) hadm).symm

end SortedRewriting
