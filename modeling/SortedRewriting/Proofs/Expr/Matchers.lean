import SortedRewriting.Proofs.Expr.Instances

/-!
# Matchers

A matcher of a pattern and an expression is a dictionary for the variables of the pattern, of terms
with the sorts of these variables, that makes the expression of the pattern.

* `Expr.matcher_iff_agrees`: a dictionary is a matcher when the expression is an instance of the
  pattern under it, and when it binds nothing else.
* **`Expr.matchWith_isMatcher`**: matching succeeds exactly where there is a matcher, and computes
  it; there is no other.
-/

namespace SortedRewriting

/-- The bindings carry the sorts of the variables of an expression, with the bindings put in. -/
def Bindings.Respects (d : Bindings) (e : Expr) : Prop :=
  ∀ name S x, Expr.IsSubterm (.node .var name [S]) e → d.get? name = some x →
    x.sortOf? = some (S.subst d)

theorem Bindings.respects_iff {d : Bindings} {e : Expr} :
    d.Respects e ↔ Expr.Respects d.get? id e := by
  simp only [Bindings.Respects, Expr.Respects, Expr.subst_eq_fill]

/-- Dictionaries that have not failed are the same if they bind the same. -/
theorem Bindings.ext_get? {d d' : Bindings} (hd : d.isFailed = false) (hd' : d'.isFailed = false)
    (h : ∀ name, d.get? name = d'.get? name) : d = d' := by
  have hentries : d.entries = d'.entries := by
    refine Std.ExtTreeMap.ext_getElem? fun name => ?_
    rw [← Bindings.get?_eq_entries hd, ← Bindings.get?_eq_entries hd', h]
  cases d
  cases d'
  exact congrArg Bindings.mk hentries

namespace Expr

/-- A dictionary of terms for exactly the variables of the pattern, with their sorts, that makes the
expression of the pattern. -/
structure Matcher (p e : Expr) (d : Bindings) : Prop where
  ok : d.isFailed = false
  names : ∀ name, (d.get? name).isSome ↔ name ∈ p.varNames
  terms : ∀ name x, d.get? name = some x → x.isSort = false
  sorts : d.Respects p
  result : p.subst d = e

variable {p e : Expr} {d : Bindings}

theorem matcher_iff_agrees (hp : p.WellFormed) : Matcher p e d ↔
    d.isFailed = false ∧ Agrees d.get? p e ∧ BindsOnly d (· ∈ p.varNames) := by
  rw [agrees_iff id hp, ← subst_eq_fill, ← Bindings.respects_iff]
  constructor
  · rintro ⟨ok, names, terms, sorts, result⟩
    refine ⟨ok, ⟨result, sorts, fun name => (names name).mpr⟩, fun name x hx => ?_⟩
    exact ⟨(names name).mp (by rw [hx]; rfl), terms name x hx⟩
  · rintro ⟨ok, ⟨result, sorts, assigned⟩, only⟩
    refine ⟨ok, fun name => ⟨fun h => ?_, assigned name⟩, fun name x hx => (only name x hx).2, sorts,
      result⟩
    obtain ⟨x, hx⟩ := Option.isSome_iff_exists.mp h
    exact (only name x hx).1

/-- What matching computes is a matcher. -/
theorem matcher_matchWith (hp : p.WellFormed) (hm : (p.matchWith e).isFailed = false) :
    Matcher p e (p.matchWith e) :=
  (matcher_iff_agrees hp).mpr ⟨hm, matchWith_sound p e hm⟩

/-- Where there is a matcher, matching does not fail. -/
theorem Matcher.isFailed_matchWith (hp : p.WellFormed) (h : Matcher p e d) :
    (p.matchWith e).isFailed = false := by
  obtain ⟨-, hagrees, -⟩ := (matcher_iff_agrees hp).mp h
  exact (matchWith_complete (by simp [Bindings.get?]) p e hagrees).ok

/-- There is one matcher. -/
theorem Matcher.unique (hp : p.WellFormed) {d' : Bindings} (h : Matcher p e d)
    (h' : Matcher p e d') : d = d' := by
  have hle : ∀ {d₁ d₂ : Bindings}, Matcher p e d₁ → Matcher p e d₂ → ∀ name x,
      d₁.get? name = some x → d₂.get? name = some x := by
    intro d₁ d₂ h₁ h₂ name x hx
    obtain ⟨-, hagrees₁, honly⟩ := (matcher_iff_agrees hp).mp h₁
    obtain ⟨-, hagrees₂, -⟩ := (matcher_iff_agrees hp).mp h₂
    obtain ⟨rest, q, hq⟩ := mem_varNames_iff.mp (honly name x hx).1
    -- both dictionaries bind the name to what stands at its position
    obtain ⟨u₁, hu₁, hv₁⟩ := hagrees₁.subterm hp hq
    obtain ⟨u₂, hu₂, hv₂⟩ := hagrees₂.subterm hp hq
    cases hu₁.symm.trans hu₂
    cases hx.symm.trans hv₁.1
    exact hv₂.1
  refine Bindings.ext_get? h.ok h'.ok fun name => Option.ext fun x => ?_
  exact ⟨hle h h' name x, hle h' h name x⟩

/-- **Matching computes the matcher.** It succeeds exactly where there is one, binds exactly the
variables of the pattern to terms of their sorts, and gives back the expression when the bindings are
put in. -/
theorem matchWith_isMatcher (hp : p.WellFormed) :
    ((p.matchWith e).isFailed = false ↔ ∃ d, Matcher p e d) ∧
      ((p.matchWith e).isFailed = false →
        Matcher p e (p.matchWith e) ∧ ∀ d, Matcher p e d → d = p.matchWith e) := by
  refine ⟨⟨fun hm => ⟨_, matcher_matchWith hp hm⟩, fun ⟨d, hd⟩ => hd.isFailed_matchWith hp⟩, ?_⟩
  exact fun hm => ⟨matcher_matchWith hp hm, fun d hd => hd.unique hp (matcher_matchWith hp hm)⟩

end Expr

/-! ## Arrows between objects -/

namespace Arrows

/-- The sort of objects. -/
def object : Expr := .node .sort "Ob" []

/-- A variable for objects. -/
def objectVar (name : String) : Expr := .node .var name [object]

/-- The sort of arrows between two objects. -/
def arrows (x y : Expr) : Expr := .node .sort "Hom" [x, y]

/-- The image of an object, which is an object and has a sort. -/
def image (x : Expr) : Expr := .node .app "F" [object, x]

/-- The identity of an object as an arrow, with some sort. -/
def identity (sort x : Expr) : Expr := .node .app "id" [sort, x]

end Arrows

open Arrows in
/-- A variable for arrows from `x` to `y` matches an identity. Its ends are bound inside its sort. -/
theorem Expr.matchWith_isMatcher_identity :
    let p : Expr := .node .var "f" [arrows (objectVar "x") (objectVar "y")]
    let e := identity (arrows (image (objectVar "z")) (image (objectVar "z"))) (image (objectVar "z"))
    p.WellFormed ∧ Matcher p e (p.matchWith e) ∧
      (p.matchWith e).get? "y" = some (image (objectVar "z")) :=
  ⟨by decide +kernel, ((matchWith_isMatcher (by decide +kernel)).2 (by decide +kernel)).1,
    by decide +kernel⟩

end SortedRewriting
