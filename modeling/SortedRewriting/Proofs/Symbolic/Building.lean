import SortedRewriting.Proofs.Lists
import SortedRewriting.Proofs.Symbolic.Typing
import SortedRewriting.Symbolic.Evaluation

/-!
# What built terms mean

A `Setting` fixes what a term is read in: the types of functions and variables, the answers of
calls and the values of variables. In it a term *means* a value (`Term.Means`) when it is well
typed, with the type of the value, and evaluates to it. Terms need not be well typed to have a value
(`Term.Evaluates`); what both relations have in common is that they follow the operations
(`Term.Reading`).

`Build.Yields x P` says that what `x` builds has the property `P`, whichever labels are free. There
is one lemma for each way to build a term: it says what the built term means from what its operands
mean, in every reading where that is possible.
-/

namespace SortedRewriting

/-- What a term is read in. -/
structure Setting where
  functions : Signature
  context : String → Option Ty
  call : Caller
  env : Env

/-- A call is well typed and has a value. -/
structure Calls (functions : Signature) (call : Caller) (name : String) (args : List Value)
    (v : Value) : Prop where
  typed : functions name = some (args.map Value.ty, v.ty)
  value : call name args = .ok v

/-- A variable is declared with the type of its value. -/
structure Setting.Binds (S : Setting) (name : String) (v : Value) : Prop where
  typed : S.context name = some v.ty
  value : S.env[name]? = some v

/-- Whether a tree has a form. -/
def Form.accepts : Form → Tree → Bool
  | .node, x => x.isNode
  | .vacant, x => x.isVacant
  | .error, x => x.isError

/-- The truth value of a connective. -/
def Connective.holds : Connective → List Bool → Bool
  | .all, bs => bs.all id
  | .any, bs => bs.any id

namespace Term

/-- The term is well typed and has the value. -/
structure Means (S : Setting) (t : Term) (v : Value) : Prop where
  typed : HasType S.functions S.context t v.ty
  value : t.valueIn S.call S.env = .ok v

/-- The term means whatever a setting binds to the variable. -/
def IsVar (t : Term) (name : String) (ty : Ty) : Prop :=
  ∀ S v, v.ty = ty → Setting.Binds S name v → Means S t v

/-- The term has the value, well typed or not. -/
def Evaluates (call : Caller) (env : Env) (t : Term) (v : Value) : Prop :=
  t.valueIn call env = .ok v

/-- A relation between terms and values that follows the operations on trees, conditions and
integers. -/
class Reading (M : Term → Value → Prop) : Prop where
  const (l : Nat) (v : Value) : M (.const l v) v
  node {l : Nat} {tag : Term} {cs : List Term} {n : Int64} {xs : List Tree} (htag : M tag (.int n))
    (hcs : List.Forall₂ (fun c x => M c (.tree x)) cs xs) (width : Nat) :
    M (.node l tag cs width) (.tree (.build n xs width))
  select {l : Nat} {a : Term} {x : Tree} (ha : M a (.tree x)) (i : Nat) :
    M (.select l a i) (.tree (x.child i))
  tagOf {l : Nat} {a : Term} {x : Tree} (ha : M a (.tree x)) : M (.tagOf l a) (.int x.tag)
  test {l : Nat} {a : Term} {x : Tree} (form : Form) (ha : M a (.tree x)) :
    M (.test l form a) (.bool (form.accepts x))
  eq {l : Nat} {a b : Term} {v w : Value} (ha : M a v) (hb : M b w) (hty : v.ty = w.ty) :
    M (.eq l a b) (.bool (v = w))
  join {l : Nat} {as : List Term} {bs : List Bool} (op : Connective)
    (h : List.Forall₂ (fun a b => M a (.bool b)) as bs) : M (.join l op as) (.bool (op.holds bs))
  arith {l : Nat} {a b : Term} {m n : Int64} (op : Arith) (ha : M a (.int m)) (hb : M b (.int n)) :
    M (.arith l op a b) (.int (op.eval m n))

/-! ## Values -/

section Evaluates

variable {call : Caller} {env : Env}

theorem valuesIn_eq_ok {as : List Term} {vs : List Value}
    (h : List.Forall₂ (Evaluates call env) as vs) : valuesIn call env as = .ok vs := by
  induction h with
  | nil => rfl
  | @cons a v as vs ha _ ih =>
    have ha : valueIn call env a = .ok v := ha
    rw [valuesIn, ha, ih]
    rfl

theorem treesIn_eq_ok {cs : List Term} {xs : List Tree}
    (h : List.Forall₂ (fun c x => Evaluates call env c (.tree x)) cs xs) :
    treesIn call env cs = .ok xs := by
  induction h with
  | nil => rfl
  | @cons c x cs xs hc _ ih =>
    have hc : valueIn call env c = .ok (.tree x) := hc
    rw [treesIn, hc, ih]
    rfl

/-- A connective of conditions has the truth value of the connective, wherever it stops. -/
theorem decideIn_eq_ok (op : Connective) {as : List Term} {bs : List Bool}
    (h : List.Forall₂ (fun a b => Evaluates call env a (.bool b)) as bs) :
    decideIn call env op as = .ok (.bool (op.holds bs)) := by
  induction h with
  | nil => cases op <;> rfl
  | @cons a b as bs ha _ ih =>
    have ha : valueIn call env a = .ok (.bool b) := ha
    rw [decideIn, ha, ih]
    cases op <;> cases b <;> rfl

instance : Reading (Evaluates call env) where
  const _ _ := rfl
  node htag hcs width := by
    unfold Evaluates at htag ⊢
    rw [valueIn, htag, treesIn_eq_ok hcs]
    rfl
  select ha i := by
    unfold Evaluates at ha ⊢
    rw [valueIn, ha]
    rfl
  tagOf ha := by
    unfold Evaluates at ha ⊢
    rw [valueIn, ha]
    rfl
  test form ha := by
    unfold Evaluates at ha ⊢
    rw [valueIn, ha]
    cases form <;> rfl
  eq ha hb hty := by
    unfold Evaluates at ha hb ⊢
    rw [valueIn, ha, hb]
    exact if_pos hty
  join op h := by
    unfold Evaluates
    rw [valueIn]
    exact decideIn_eq_ok op h
  arith op ha hb := by
    unfold Evaluates at ha hb ⊢
    rw [valueIn, ha, hb]
    rfl

end Evaluates

/-! ## Well-typed terms -/

variable {S : Setting}

/-- Operands that mean values have the types of the values. -/
theorem typed_of_means {as : List Term} {vs : List Value} (h : List.Forall₂ (Means S) as vs) :
    as.length = (vs.map Value.ty).length ∧
      ∀ a p, (a, p) ∈ as.zip (vs.map Value.ty) → HasType S.functions S.context a p := by
  induction h with
  | nil => exact ⟨rfl, fun a p h => absurd h List.not_mem_nil⟩
  | cons ha _ ih =>
    refine ⟨congrArg (· + 1) ih.1, fun a p h => ?_⟩
    rcases List.mem_cons.mp h with h | h
    · cases h
      exact ha.typed
    · exact ih.2 a p h

theorem values_of_means {as : List Term} {vs : List Value} (h : List.Forall₂ (Means S) as vs) :
    List.Forall₂ (Evaluates S.call S.env) as vs := h.imp fun _ _ h => h.value

/-- What is built from well-typed operands is well typed, and has the value that it has in any
case. -/
instance : Reading (Means S) where
  const l v := ⟨.const, Reading.const (M := Evaluates S.call S.env) l v⟩
  node htag hcs width := by
    refine ⟨.node htag.typed fun c hc => ?_, ?_⟩
    · obtain ⟨x, -, hx⟩ := exists_of_mem_left hcs hc
      exact hx.typed
    · exact Reading.node (M := Evaluates S.call S.env) htag.value
        (hcs.imp fun _ _ hc => hc.value) width
  select ha i := ⟨.select ha.typed, Reading.select (M := Evaluates S.call S.env) ha.value i⟩
  tagOf ha := ⟨.tagOf ha.typed, Reading.tagOf (M := Evaluates S.call S.env) ha.value⟩
  test form ha := ⟨.test ha.typed, Reading.test (M := Evaluates S.call S.env) form ha.value⟩
  eq ha hb hty := ⟨.eq ha.typed (hty ▸ hb.typed),
    Reading.eq (M := Evaluates S.call S.env) ha.value hb.value hty⟩
  join op h := by
    refine ⟨.join fun c hc => ?_, ?_⟩
    · obtain ⟨d, -, hd⟩ := exists_of_mem_left h hc
      exact hd.typed
    · exact Reading.join (M := Evaluates S.call S.env) op (h.imp fun _ _ hc => hc.value)
  arith op ha hb := ⟨.arith ha.typed hb.typed,
    Reading.arith (M := Evaluates S.call S.env) op ha.value hb.value⟩

end Term

namespace Build

/-- What is built has the property, whichever labels are free. -/
def Yields {α : Type} (x : Build α) (P : α → Prop) : Prop := ∀ n, P (x n).1

variable {α β : Type} {P : α → Prop} {Q : β → Prop}

theorem Yields.pure {a : α} (h : P a) : Yields (Pure.pure a) P := fun _ => h

theorem Yields.bind {x : Build α} {f : α → Build β} (hx : Yields x P)
    (hf : ∀ a, P a → Yields (f a) Q) : Yields (x >>= f) Q :=
  fun n => hf (x n).1 (hx n) (x n).2

theorem Yields.mono {x : Build α} {P' : α → Prop} (hx : Yields x P) (h : ∀ a, P a → P' a) :
    Yields x P' := fun n => h _ (hx n)

theorem Yields.result {x : Build α} (hx : Yields x P) : P x.result := hx 0

/-- What is built for each element of a list has the property for its partner in another list. -/
theorem Yields.mapM_of_forall₂ {γ : Type} {R : γ → α → Prop} {Q : γ → β → Prop} {f : α → Build β}
    {cs : List γ} {as : List α} (h : List.Forall₂ R cs as)
    (hf : ∀ c ∈ cs, ∀ a, R c a → Yields (f a) (Q c)) :
    Yields (as.mapM f) (List.Forall₂ Q cs) := by
  induction h with
  | nil => exact .pure .nil
  | @cons c a cs as hca _ ih =>
    rw [List.mapM_cons]
    exact (hf c List.mem_cons_self a hca).bind fun b hb =>
      (ih fun c' hc' => hf c' (List.mem_cons_of_mem c hc')).bind fun bs hbs => .pure (.cons hb hbs)

/-- What is built for each element of a list has the property for that element. -/
theorem Yields.mapM {R : α → β → Prop} {f : α → Build β} {as : List α}
    (h : ∀ a ∈ as, Yields (f a) (R a)) : Yields (as.mapM f) (List.Forall₂ R as) :=
  .mapM_of_forall₂ (List.forall₂_same.mpr fun a _ => (rfl : a = a)) fun a ha _ he => he ▸ h a ha

open Term (Means HasType Reading)

/-! ## Leaves -/

section Reading

variable {M : Term → Value → Prop} [Reading M]

theorem yields_const (M : Term → Value → Prop) [Reading M] (v : Value) :
    Yields (const v) (M · v) := fun _ => Reading.const _ v

theorem yields_tree (M : Term → Value → Prop) [Reading M] (x : Tree) :
    Yields (tree x) (M · (.tree x)) := yields_const M _

theorem yields_int (M : Term → Value → Prop) [Reading M] (n : Int64) :
    Yields (int n) (M · (.int n)) := yields_const M _

theorem yields_path (M : Term → Value → Prop) [Reading M] (p : Path) :
    Yields (path p) (M · (.path p)) := yields_const M _

theorem yields_rule (M : Term → Value → Prop) [Reading M] (r : RuleTag) :
    Yields (rule r) (M · (.rule r)) := yields_const M _

/-! ## Trees -/

theorem yields_node {tag : Term} {cs : List Term} {n : Int64} {xs : List Tree}
    (htag : M tag (.int n)) (hcs : List.Forall₂ (fun c x => M c (.tree x)) cs xs) (width : Nat) :
    Yields (node tag cs width) (M · (.tree (.build n xs width))) :=
  fun _ => Reading.node htag hcs width

theorem yields_select {a : Term} {x : Tree} (ha : M a (.tree x)) (i : Nat) :
    Yields (select a i) (M · (.tree (x.child i))) := fun _ => Reading.select ha i

/-- Repeated selection means the subtree at the path. -/
theorem yields_selectPath {a : Term} {x : Tree} (ha : M a (.tree x)) (p : Path) :
    Yields (selectPath a p) (M · (.tree (x.getAt p))) := by
  induction p generalizing a x with
  | nil => exact .pure ha
  | cons i p ih => exact (yields_select ha i).bind fun b hb => ih hb

theorem yields_tagOf {a : Term} {x : Tree} (ha : M a (.tree x)) :
    Yields (tagOf a) (M · (.int x.tag)) := fun _ => Reading.tagOf ha

/-! ## Conditions -/

theorem yields_test {a : Term} {x : Tree} (form : Form) (ha : M a (.tree x)) :
    Yields (test form a) (M · (.bool (form.accepts x))) := fun _ => Reading.test form ha

theorem yields_eq {a b : Term} {v w : Value} (ha : M a v) (hb : M b w) (hty : v.ty = w.ty) :
    Yields (eq a b) (M · (.bool (v = w))) := fun _ => Reading.eq ha hb hty

theorem yields_join (op : Connective) {as : List Term} {bs : List Bool}
    (h : List.Forall₂ (fun a b => M a (.bool b)) as bs) :
    Yields (join op as) (M · (.bool (op.holds bs))) := by
  match as, bs, h with
  | [], [], _ => cases op <;> exact yields_const M _
  | [a], [b], h =>
    have hb : op.holds [b] = b := by cases op <;> simp [Connective.holds]
    rw [hb]
    exact .pure (List.forall₂_cons.mp h).1
  | _ :: _ :: _, _ :: _ :: _, h => exact fun _ => Reading.join op h

theorem yields_all {as : List Term} {bs : List Bool}
    (h : List.Forall₂ (fun a b => M a (.bool b)) as bs) :
    Yields (all as) (M · (.bool (bs.all id))) := yields_join .all h

/-! ## Arithmetic -/

theorem yields_add {a b : Term} {m n : Int64} (ha : M a (.int m)) (hb : M b (.int n)) :
    Yields (add a b) (M · (.int (m + n))) := fun _ => Reading.arith .add ha hb

theorem yields_mul {a b : Term} {m n : Int64} (ha : M a (.int m)) (hb : M b (.int n)) :
    Yields (mul a b) (M · (.int (m * n))) := fun _ => Reading.arith .mul ha hb

end Reading

/-! ## Variables, choices and calls -/

variable {S : Setting}

theorem yields_var (name : String) (ty : Ty) : Yields (var name ty) (Term.IsVar · name ty) := by
  rintro _ S v rfl h
  refine ⟨.var h.typed, ?_⟩
  show Term.lookUp S.env name v.ty = .ok v
  unfold Term.lookUp
  rw [h.value]
  exact if_pos rfl

theorem yields_ite {c y n : Term} {b : Bool} {v w : Value} (hc : Means S c (.bool b))
    (hy : Means S y v) (hn : Means S n w) (hty : v.ty = w.ty) :
    Yields (ite c y n) (Means S · (if b then v else w)) := by
  intro l
  have hv : (if b then v else w).ty = v.ty := by
    cases b
    · exact hty.symm
    · rfl
  refine ⟨?_, ?_⟩
  · rw [hv]
    exact .ite hc.typed hy.typed (hty ▸ hn.typed)
  · show Term.valueIn _ _ (.ite _ c y n) = _
    rw [Term.valueIn, hc.value]
    cases b
    · exact hn.value
    · exact hy.value

/-- The first branch whose condition holds, or the default. -/
def firstTrue (branches : List (Bool × Tree)) (default : Tree) : Tree :=
  ((branches.find? (·.1)).map (·.2)).getD default

theorem yields_iteChain {branches : List (Term × Term)} {values : List (Bool × Tree)}
    {d : Term} {x : Tree} (h : List.Forall₂
      (fun t v => Means S t.1 (.bool v.1) ∧ Means S t.2 (.tree v.2)) branches values)
    (hd : Means S d (.tree x)) :
    Yields (iteChain branches d) (Means S · (.tree (firstTrue values x))) := by
  induction h with
  | nil => exact .pure hd
  | @cons t v branches values ht _ ih =>
    refine ih.bind fun rest hrest => ?_
    have hval : Value.tree (firstTrue (v :: values) x) =
        if v.1 then .tree v.2 else .tree (firstTrue values x) := by
      unfold firstTrue
      rw [List.find?_cons]
      cases v.1 <;> rfl
    rw [hval]
    exact yields_ite ht.1 ht.2 hrest rfl

theorem yields_apply {name : String} {as : List Term} {vs : List Value} {v : Value}
    (hf : Calls S.functions S.call name vs v) (has : List.Forall₂ (Means S) as vs) :
    Yields (apply name as v.ty) (Means S · v) := by
  obtain ⟨arity, args⟩ := Term.typed_of_means has
  refine fun _ => ⟨.apply hf.typed arity args, ?_⟩
  show Term.valueIn _ _ (.apply _ name as v.ty) = _
  rw [Term.valueIn, Term.valuesIn_eq_ok (Term.values_of_means has)]
  exact hf.value

end Build

end SortedRewriting
