import Mathlib.Order.Bounds.Basic
import SortedRewriting.Proofs.Expr.Matchers
import SortedRewriting.Proofs.Theory.Inference

/-!
# The argument that is blamed

A joint matcher of patterns and arguments is one dictionary for the variables of all patterns. The
arguments of an operator are matched one after the other, and the first one at which there is no
joint matcher any more is blamed.

* `Theory.matchArgs_eq_ok_iff`: matching arguments computes the joint matcher.
* `Theory.matchArgs_append`: arguments are matched on top of those before them.
* **`Theory.Made.infer_exact`**: a sort is inferred exactly where there is a joint matcher, and else
  the first argument is blamed at which there is none: by itself, when its pattern does not match,
  or for a conflict with the arguments before it.
-/

namespace SortedRewriting

open Bindings (Assignment failureName)

namespace Expr

variable {p a : Expr} {ps as : List Expr} {d d' : Bindings}

/-- A dictionary of terms for exactly the variables of the patterns, with their sorts, that makes
each of the expressions of its pattern. -/
structure JointMatcher (ps as : List Expr) (d : Bindings) : Prop where
  ok : d.isFailed = false
  names : ∀ name, (d.get? name).isSome ↔ ∃ p ∈ ps, name ∈ p.varNames
  terms : ∀ name x, d.get? name = some x → x.isSort = false
  sorts : ∀ p ∈ ps, d.Respects p
  result : ps.map (·.subst d) = as

/-- Expressions are instances of their patterns when they are made of them by substitution, and the
bindings carry the sorts of all variables. -/
theorem forall₂_agrees_iff (hps : ∀ p ∈ ps, p.WellFormed) :
    List.Forall₂ (Agrees d.get?) ps as ↔ ps.map (·.subst d) = as ∧
      ∀ p ∈ ps, d.Respects p ∧ ∀ name ∈ p.varNames, (d.get? name).isSome := by
  induction ps generalizing as with
  | nil =>
    rw [List.forall₂_nil_left_iff]
    exact ⟨fun h => ⟨h.symm, fun _ hp => absurd hp List.not_mem_nil⟩, fun h => h.1.symm⟩
  | cons p ps ih =>
    obtain ⟨hp, hps⟩ := List.forall_mem_cons.mp hps
    cases as with
    | nil => simp
    | cons a as =>
      rw [List.forall₂_cons, ih hps, agrees_iff id hp, ← subst_eq_fill, ← Bindings.respects_iff,
        List.map_cons, List.cons_eq_cons, List.forall_mem_cons]
      tauto

theorem JointMatcher.length_eq (h : JointMatcher ps as d) : ps.length = as.length := by
  rw [← h.result, List.length_map]

theorem jointMatcher_iff_agrees (hps : ∀ p ∈ ps, p.WellFormed) : JointMatcher ps as d ↔
    d.isFailed = false ∧ List.Forall₂ (Agrees d.get?) ps as ∧
      BindsOnly d fun name => ∃ p ∈ ps, name ∈ p.varNames := by
  rw [forall₂_agrees_iff hps]
  constructor
  · rintro ⟨ok, names, terms, sorts, result⟩
    refine ⟨ok, ⟨result, fun p hp => ⟨sorts p hp, fun name hname => ?_⟩⟩, fun name x hx => ?_⟩
    · exact (names name).mpr ⟨p, hp, hname⟩
    · exact ⟨(names name).mp (by rw [hx]; rfl), terms name x hx⟩
  · rintro ⟨ok, ⟨result, hps⟩, only⟩
    refine ⟨ok, fun name => ⟨fun h => ?_, fun ⟨p, hp, hname⟩ => (hps p hp).2 name hname⟩,
      fun name x hx => (only name x hx).2, fun p hp => (hps p hp).1, result⟩
    obtain ⟨x, hx⟩ := Option.isSome_iff_exists.mp h
    exact (only name x hx).1

end Expr

namespace Theory

open SortedRewriting.Expr (JointMatcher Matcher Agrees)

variable {sym : String} {index : Nat} {p a : Expr} {ps as ps' as' : List Expr} {d d' : Bindings}
  {err : ElaborationError}

/-! ## Joint matchers -/

/-- What the arguments bind, on top of nothing, is a joint matcher. -/
theorem jointMatcher_of_matchArgs (hps : ∀ p ∈ ps, p.WellFormed) (hlen : ps.length = as.length)
    (h : matchArgs sym index .empty ps as = .ok d) : JointMatcher ps as d := by
  obtain ⟨hagrees, -⟩ := matchArgs_sound hlen h
  -- the bindings of the patterns' variables suffice, so no others are there
  classical
  let σ : Assignment := fun n => if ∃ p ∈ ps, n ∈ p.varNames then d.get? n else none
  have hσ : σ failureName = none := by
    refine if_neg ?_
    rintro ⟨p, hp, hname⟩
    exact (hps p hp).ne_failureName hname rfl
  have hagrees' : List.Forall₂ (Agrees σ) ps as := by
    refine forall₂_imp_mem hagrees fun p hp a _ hpa => hpa.congr (hps p hp) fun n hn x hx => ?_
    exact (if_pos ⟨p, hp, hn⟩).trans hx
  obtain ⟨d', hd', hunder⟩ := matchArgs_complete sym index hσ Bindings.under_empty hagrees'
  cases h.symm.trans hd'
  refine (Expr.jointMatcher_iff_agrees hps).mpr ⟨hunder.ok, hagrees, fun n x hx => ?_⟩
  obtain ⟨hn, hx⟩ := hunder.binds n x hx
  exact ⟨by_contra fun hnone => Option.some_ne_none x (hn.symm.trans (if_neg hnone)), hx⟩

/-- **Matching arguments computes the joint matcher.** -/
theorem matchArgs_eq_ok_iff (sym : String) (index : Nat) (hps : ∀ p ∈ ps, p.WellFormed)
    (hlen : ps.length = as.length) :
    matchArgs sym index .empty ps as = .ok d ↔ JointMatcher ps as d := by
  refine ⟨jointMatcher_of_matchArgs hps hlen, fun h => ?_⟩
  obtain ⟨-, hagrees, -⟩ := (Expr.jointMatcher_iff_agrees hps).mp h
  obtain ⟨d', hd', hunder⟩ := matchArgs_complete sym index (by simp [Bindings.get?])
    Bindings.under_empty hagrees
  have h' := jointMatcher_of_matchArgs hps hlen hd'
  have heq : d' = d := by
    refine Bindings.ext_get? h'.ok h.ok fun name => ?_
    cases hx : d'.get? name with
    | some x => exact (hunder.binds name x hx).1.symm
    | none =>
      have hnone : ¬ (d'.get? name).isSome := by simp [hx]
      rw [h'.names, ← h.names] at hnone
      exact (Option.not_isSome_iff_eq_none.mp hnone).symm
  rw [hd', heq]

/-! ## One argument after the other -/

/-- Arguments are matched on top of those before them. -/
theorem matchArgs_append (hlen : ps.length = as.length) :
    matchArgs sym index d (ps ++ ps') (as ++ as') =
      matchArgs sym index d ps as >>= fun d' =>
        matchArgs sym (index + ps.length) d' ps' as' := by
  induction ps generalizing as index d with
  | nil =>
    cases List.length_eq_zero_iff.mp hlen.symm
    rfl
  | cons p ps ih =>
    cases as with
    | nil => cases hlen
    | cons a as =>
      rw [List.cons_append, List.cons_append, matchArgs, matchArgs]
      split
      · rfl
      · split
        · rfl
        · rw [ih (Nat.succ.inj hlen), List.length_cons, Nat.add_right_comm, Nat.add_assoc]

/-- When one argument is refused. -/
theorem matchArgs_singleton_eq_error_iff : matchArgs sym index d [p] [a] = .error err ↔
    (p.matchWith a).isFailed = true ∧ err = .argument sym index ∨
      (p.matchWith a).isFailed = false ∧ (d.merge (p.matchWith a)).isFailed = true ∧
        err = .conflict sym index := by
  unfold matchArgs
  cases hm : (p.matchWith a).isFailed <;> cases hmerge : (d.merge (p.matchWith a)).isFailed <;>
    simp [matchArgs, hm, hmerge, eq_comm]

/-- Arguments are refused at one of them, on top of the bindings of those before it. -/
theorem matchArgs_stops (hlen : ps.length = as.length)
    (h : matchArgs sym index d ps as = .error err) : ∃ i p a d', ps[i]? = some p ∧
      as[i]? = some a ∧ matchArgs sym index d (ps.take i) (as.take i) = .ok d' ∧
      matchArgs sym (index + i) d' [p] [a] = .error err := by
  induction ps generalizing as index d with
  | nil => exact absurd h nofun
  | cons p ps ih =>
    cases as with
    | nil => cases hlen
    | cons a as =>
      have hcons : ∀ ps' as', matchArgs sym index d (p :: ps') (a :: as') =
          matchArgs sym index d [p] [a] >>= fun d' => matchArgs sym (index + 1) d' ps' as' := by
        intro ps' as'
        change matchArgs sym index d ([p] ++ ps') ([a] ++ as') = _
        exact matchArgs_append rfl
      rw [hcons] at h
      rcases bind_eq_error_iff.mp h with h | ⟨d₁, hfirst, h⟩
      · exact ⟨0, p, a, d, rfl, rfl, rfl, h⟩
      · obtain ⟨i, q, b, d', hq, hb, hbefore, h⟩ := ih (Nat.succ.inj hlen) h
        refine ⟨i + 1, q, b, d', hq, hb, ?_, by rwa [Nat.add_right_comm, Nat.add_assoc] at h⟩
        rw [List.take_succ_cons, List.take_succ_cons, hcons, hfirst]
        exact hbefore

/-! ## The first misfit -/

/-- The arguments up to which there is no joint matcher. -/
def misfits (ps as : List Expr) : Set Nat :=
  {i | ¬ ∃ d, JointMatcher (ps.take (i + 1)) (as.take (i + 1)) d}

/-- Where all arguments have a joint matcher, so have the first ones. -/
theorem exists_jointMatcher_take (hps : ∀ p ∈ ps, p.WellFormed) (h : ∃ d, JointMatcher ps as d)
    (n : Nat) : ∃ d, JointMatcher (ps.take n) (as.take n) d := by
  obtain ⟨d, h⟩ := h
  have hlen : (ps.take n).length = (as.take n).length := by
    rw [List.length_take, List.length_take, h.length_eq]
  have hargs := (matchArgs_eq_ok_iff "" 0 hps h.length_eq).mpr h
  rw [← List.take_append_drop n ps, ← List.take_append_drop n as, matchArgs_append hlen] at hargs
  obtain ⟨d', hd', -⟩ := bind_eq_ok_iff.mp hargs
  exact ⟨d', jointMatcher_of_matchArgs (fun p hp => hps p (List.mem_of_mem_take hp)) hlen hd'⟩

/-- **Arguments are refused at the first misfit.** -/
theorem isLeast_misfits (hps : ∀ p ∈ ps, p.WellFormed) (hlen : ps.length = as.length)
    (h : matchArgs sym 0 .empty ps as = .error err) : ∃ i p a d, ps[i]? = some p ∧
      as[i]? = some a ∧ IsLeast (misfits ps as) i ∧ matchArgs sym i d [p] [a] = .error err := by
  obtain ⟨i, p, a, d, hp, ha, hbefore, hstop⟩ := matchArgs_stops hlen h
  rw [Nat.zero_add] at hstop
  have htake : ∀ n, (∀ p ∈ ps.take n, p.WellFormed) ∧ (ps.take n).length = (as.take n).length :=
    fun n => ⟨fun p hp => hps p (List.mem_of_mem_take hp), by
      rw [List.length_take, List.length_take, hlen]⟩
  refine ⟨i, p, a, d, hp, ha, ⟨?_, ?_⟩, hstop⟩
  · rintro ⟨d', hd'⟩
    rw [← matchArgs_eq_ok_iff sym 0 (htake (i + 1)).1 (htake (i + 1)).2,
      List.take_add_one, List.take_add_one, hp, ha, matchArgs_append (htake i).2, hbefore] at hd'
    have hi : (ps.take i).length = i := by
      rw [List.length_take_of_le (List.getElem?_eq_some_iff.mp hp).1.le]
    rw [hi, Nat.zero_add] at hd'
    exact absurd (hstop.symm.trans hd') nofun
  · intro j hj
    by_contra hlt
    refine hj ?_
    have hjoint : ∃ d, JointMatcher (ps.take i) (as.take i) d :=
      ⟨d, jointMatcher_of_matchArgs (htake i).1 (htake i).2 hbefore⟩
    have hprefix := exists_jointMatcher_take (htake i).1 hjoint (j + 1)
    rwa [List.take_take, List.take_take, min_eq_left (by omega)] at hprefix

/-- The error is about the first misfit: about the argument itself where it alone has no matcher,
and else about a conflict with the arguments before it. -/
def Blames (sym : String) (ps as : List Expr) (err : ElaborationError) : Prop :=
  ∃ i p a, IsLeast (misfits ps as) i ∧ ps[i]? = some p ∧ as[i]? = some a ∧
    ((¬ ∃ d, Matcher p a d) ∧ err = .argument sym i ∨ (∃ d, Matcher p a d) ∧ err = .conflict sym i)

theorem Blames.unique {err' : ElaborationError} (h : Blames sym ps as err)
    (h' : Blames sym ps as err') : err = err' := by
  obtain ⟨i, p, a, hleast, hp, ha, h⟩ := h
  obtain ⟨i', p', a', hleast', hp', ha', h'⟩ := h'
  cases hleast.unique hleast'
  cases hp.symm.trans hp'
  cases ha.symm.trans ha'
  rcases h with ⟨hnone, rfl⟩ | ⟨hsome, rfl⟩ <;> rcases h' with ⟨hnone', rfl⟩ | ⟨hsome', rfl⟩
  · rfl
  · exact absurd hsome' hnone
  · exact absurd hsome hnone'
  · rfl

/-- A match fails where there is no matcher. -/
theorem isFailed_matchWith_iff (hp : p.WellFormed) :
    (p.matchWith a).isFailed = true ↔ ¬ ∃ d, Matcher p a d := by
  rw [← Bool.not_eq_false]
  exact not_congr ⟨fun hm => ⟨_, Expr.matcher_matchWith hp hm⟩,
    fun ⟨_, hd⟩ => hd.isFailed_matchWith hp⟩

/-- What is refused is blamed. -/
theorem blames_of_matchArgs (hps : ∀ p ∈ ps, p.WellFormed) (hlen : ps.length = as.length)
    (h : matchArgs sym 0 .empty ps as = .error err) : Blames sym ps as err := by
  obtain ⟨i, p, a, d, hp, ha, hleast, hstop⟩ := isLeast_misfits hps hlen h
  have hmatch := isFailed_matchWith_iff (a := a) (hps p (List.mem_of_getElem? hp))
  refine ⟨i, p, a, hleast, hp, ha, ?_⟩
  rcases matchArgs_singleton_eq_error_iff.mp hstop with ⟨hm, herr⟩ | ⟨hm, -, herr⟩
  · exact .inl ⟨hmatch.mp hm, herr⟩
  · exact .inr ⟨by_contra fun hnone => absurd (hmatch.mpr hnone) (by simp [hm]), herr⟩

/-! ## Inference -/

variable {t : Theory} {decl : OpDecl}

/-- **Inference blames the first misfit.** A sort is inferred exactly where patterns and arguments
have a joint matcher, and it is the result sort with this matcher put in. Where there is none, the
error is about the first argument at which there is none any more. -/
theorem Made.infer_exact (ht : t.Made) (hdecl : t.ops[sym]? = some decl)
    (hlen : decl.args.length = as.length) :
    (∀ sort, t.infer sym as = .ok sort ↔
      ∃ d, JointMatcher decl.args as d ∧ sort = decl.sort.subst d) ∧
    ∀ err, t.infer sym as = .error err ↔ Blames sym decl.args as err := by
  have hps := (ht.sound.ops sym decl hdecl).2
  rw [infer_eq_matchArgs hdecl hlen]
  cases hargs : matchArgs sym 0 .empty decl.args as with
  | ok d =>
    have hjoint : JointMatcher decl.args as d := (matchArgs_eq_ok_iff sym 0 hps hlen).mp hargs
    refine ⟨fun sort => ⟨?_, ?_⟩, fun err => ⟨nofun, ?_⟩⟩
    · rintro ⟨⟩
      exact ⟨d, hjoint, rfl⟩
    · rintro ⟨d', hd', rfl⟩
      cases hargs.symm.trans ((matchArgs_eq_ok_iff sym 0 hps hlen).mpr hd')
      rfl
    · -- there is no misfit
      rintro ⟨i, p, a, hleast, -⟩
      exact absurd (exists_jointMatcher_take hps ⟨d, hjoint⟩ (i + 1)) hleast.1
  | error err =>
    have hblames : Blames sym decl.args as err := blames_of_matchArgs hps hlen hargs
    refine ⟨fun sort => ⟨nofun, ?_⟩, fun err' => ⟨?_, ?_⟩⟩
    · rintro ⟨d, hd, -⟩
      cases hargs.symm.trans ((matchArgs_eq_ok_iff sym 0 hps hlen).mpr hd)
    · rintro ⟨⟩
      exact hblames
    · exact fun hblames' => congrArg Except.error (hblames.unique hblames')

end Theory

namespace Arrows

/-- A variable for arrows between two variables for objects. -/
def arrowVar (name x y : String) : Expr := .node .var name [arrows (objectVar x) (objectVar y)]

/-- The composition of two arrows, the second of which starts where the first ends. -/
def composition : OpDecl :=
  ⟨"comp", arrows (objectVar "x") (objectVar "z"), [arrowVar "f" "x" "y", arrowVar "g" "y" "z"], ""⟩

end Arrows

open Arrows Theory in
/-- Arrows that follow each other have a composition. Of two that do not, the second is in conflict
with the first, since it is an arrow; a second argument that is none is blamed by itself. -/
theorem Theory.Made.infer_exact_composition : ∃ t : Theory, t.Made ∧
    t.ops["comp"]? = some composition ∧
    let f := arrowVar "f" "a" "b"
    let g := arrowVar "g" "b" "c"
    t.infer "comp" [f, g] = .ok (arrows (objectVar "a") (objectVar "c")) ∧
    (∃ d, Expr.JointMatcher composition.args [f, g] d) ∧
    t.infer "comp" [g, f] = .error (.conflict "comp" 1) ∧
    IsLeast (misfits composition.args [g, f]) 1 ∧
    Blames "comp" composition.args [f, objectVar "a"] (.argument "comp" 1) := by
  obtain ⟨t, ht, h⟩ := Theory.exists_made "compositions"
    [("Ob", ⟨"Ob", [], ""⟩), ("Hom", ⟨"Hom", [objectVar "x", objectVar "y"], ""⟩)]
    [("comp", composition)] [] (P := fun t => decide (t.ops["comp"]? = some composition ∧
      t.infer "comp" [arrowVar "f" "a" "b", arrowVar "g" "b" "c"] =
        .ok (arrows (objectVar "a") (objectVar "c")) ∧
      t.infer "comp" [arrowVar "g" "b" "c", arrowVar "f" "a" "b"] = .error (.conflict "comp" 1) ∧
      t.infer "comp" [arrowVar "f" "a" "b", objectVar "a"] = .error (.argument "comp" 1)))
    (by decide +kernel)
  obtain ⟨hdecl, hok, hconflict, hargument⟩ := of_decide_eq_true h
  have hlen : ∀ a b : Expr, composition.args.length = [a, b].length := fun _ _ => rfl
  obtain ⟨d, hd, -⟩ := ((Theory.Made.infer_exact ht hdecl (hlen _ _)).1 _).mp hok
  have hblames := ((Theory.Made.infer_exact ht hdecl (hlen _ _)).2 _).mp hconflict
  obtain ⟨i, -, -, hleast, -, -, ⟨-, hi⟩ | ⟨-, hi⟩⟩ := hblames
  · cases hi
  · cases hi
    exact ⟨t, ht, hdecl, hok, ⟨d, hd⟩, hconflict, hleast,
      ((Theory.Made.infer_exact ht hdecl (hlen _ _)).2 _).mp hargument⟩

end SortedRewriting
