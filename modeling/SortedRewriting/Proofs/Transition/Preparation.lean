import SortedRewriting.Proofs.Symbolic.Strata
import SortedRewriting.Proofs.Transition.Definitions
import SortedRewriting.Transition.Preparation

/-!
# The table of a checker that is prepared

A checker takes definitions one by one, and refuses those that call what is not there yet. So its
table is stratified, whatever it is asked for and whichever requests it refuses.

* `Request.on_cases`: what a request does. If it fails, the checker stays as it is.
* `Checker.stratified_prepare`, `Checker.defs_prepare`: what any sequence of requests does to the
  table, by induction on the requests.
* **`Checker.prepare_table`**: the table holds the functions that were defined, in order, each over
  earlier ones; without self-application all calls end.
-/

namespace SortedRewriting

open Term (OnApplied)

variable {c c' : Checker} {f : FunDef}

/-! ## Preparing in place -/

namespace Preparation

theorem on_bind {α β : Type} (change : Preparation α) (next : α → Preparation β) (c : Checker) :
    (change >>= next).on c = match change.on c with
      | (.ok a, c') => (next a).on c'
      | (.error err, c') => (.error err, c') := by
  unfold on ExceptT.run StateT.run Id.run
  simp only [bind, ExceptT.bind, ExceptT.mk, StateT.bind, ExceptT.bindCont]
  obtain ⟨_ | a, c'⟩ := change c <;> rfl

theorem on_get_bind {α : Type} (next : Checker → Preparation α) (c : Checker) :
    (get >>= next).on c = (next c).on c := rfl

theorem on_insert (f : FunDef) (c : Checker) :
    (insert f).on c = ((c.functions.insert? f).elim (.ok false, c) fun functions =>
      (.ok true, { c with functions })) := by
  unfold insert
  rw [on_get_bind]
  cases c.functions.insert? f <;> rfl

/-- A definition in place is what is computed, and changes nothing if it is refused. -/
theorem on_define (f : FunDef) (c : Checker) :
    (define f).on c = ((c.define f).map fun _ => (), (c.define f).toOption.getD c) := by
  unfold define Checker.define
  rw [on_get_bind]
  cases c.bounds?.isNone with
  | true => rfl
  | false =>
    show on (get >>= _) c = _
    rw [on_get_bind]
    cases f.body.calledFunctions.find? (!c.mayCall f ·) with
    | some missing => rfl
    | none =>
      show on (insert f >>= _) c = _
      rw [on_bind, on_insert]
      cases c.functions.insert? f <;> rfl

end Preparation

/-- A definition that is taken applies itself and functions of the table, and is put at its end. -/
theorem Checker.define_eq_ok (h : c.define f = .ok c') :
    OnApplied (fun g => g = f.name ∨ g ∈ c.functions.names) f.body ∧
      ∃ t : FunctionTable, t.defs = c.functions.defs ++ [f] ∧ c' = { c with functions := t } := by
  unfold define at h
  split at h
  · cases h
  · split at h
    · cases h
    · rename_i hcalled
      split at h
      · cases h
      · rename_i t ht
        refine ⟨fun g hg => ?_, t, FunctionTable.defs_of_insert?_eq_some ht,
          (Except.ok.inj h).symm⟩
        have hmay := List.find?_eq_none.mp hcalled g (Term.mem_calledFunctions_iff.mpr hg)
        rw [Bool.not_eq_true', Bool.not_eq_false] at hmay
        exact mayCall_iff.mp hmay

/-! ## Requests -/

/-- A request fails and leaves the checker as it is, or declares bounds, or puts a definition at the
end of the table that applies itself and functions of the table. -/
theorem Request.on_cases (r : Request) (c : Checker) :
    (∃ err, r.on c = (.error err, c)) ∨
    (∃ b, r = .declare b ∧ r.on c = (.ok (), c.declare b)) ∨
    ∃ f t, r = .define f ∧ r.on c = (.ok (), { c with functions := t }) ∧
      t.defs = c.functions.defs ++ [f] ∧
      OnApplied (fun g => g = f.name ∨ g ∈ c.functions.names) f.body := by
  cases r with
  | declare b => exact .inr (.inl ⟨b, rfl, rfl⟩)
  | define f =>
    have hon : (Request.define f).on c = _ := Preparation.on_define f c
    rw [hon]
    cases hf : c.define f with
    | error err => exact .inl ⟨err, rfl⟩
    | ok c' =>
      obtain ⟨happlied, t, hdefs, rfl⟩ := Checker.define_eq_ok hf
      exact .inr (.inr ⟨f, t, rfl, rfl, hdefs, happlied⟩)

/-- A request that fails leaves the checker as it is. -/
theorem Request.on_eq_of_error {r : Request} {err : CheckerError} (h : (r.on c).1 = .error err) :
    (r.on c).2 = c := by
  rcases r.on_cases c with ⟨_, hon⟩ | ⟨_, -, hon⟩ | ⟨_, _, -, hon, -⟩
  · rw [hon]
  all_goals
    rw [hon] at h
    cases h

namespace Checker

/-- One request keeps the table stratified. -/
theorem stratified_on (h : c.functions.Stratified) (r : Request) :
    (r.on c).2.functions.Stratified := by
  rcases r.on_cases c with ⟨_, hon⟩ | ⟨_, -, hon⟩ | ⟨f, t, -, hon, hdefs, happlied⟩
  · rwa [hon]
  · rwa [hon]
  · rw [hon]
    exact h.append hdefs happlied

/-- One request puts what it defines at the end of the table. -/
theorem defs_on (r : Request) (c : Checker) :
    (r.on c).2.functions.defs = c.functions.defs ++ Log.defined [(r, (r.on c).1)] := by
  rcases r.on_cases c with ⟨_, hon⟩ | ⟨_, rfl, hon⟩ | ⟨f, t, rfl, hon, hdefs, -⟩
  · rw [hon]
    cases r <;> exact (List.append_nil _).symm
  · rw [hon]
    exact (List.append_nil _).symm
  · rw [hon]
    exact hdefs

theorem prepare_cons (c : Checker) (r : Request) (rs : List Request) :
    c.prepare (r :: rs) =
      ((r, (r.on c).1) :: ((r.on c).2.prepare rs).1, ((r.on c).2.prepare rs).2) := rfl

theorem stratified_prepare (h : c.functions.Stratified) (rs : List Request) :
    (c.prepare rs).2.functions.Stratified := by
  induction rs generalizing c with
  | nil => exact h
  | cons r rs ih => exact ih (stratified_on h r)

theorem defs_prepare (c : Checker) (rs : List Request) :
    (c.prepare rs).2.functions.defs = c.functions.defs ++ (c.prepare rs).1.defined := by
  induction rs generalizing c with
  | nil => exact (List.append_nil _).symm
  | cons r rs ih =>
    rw [prepare_cons, ih, defs_on, List.append_assoc]
    unfold Log.defined
    rw [← List.filterMap_append, List.singleton_append]

open FunctionTable (Ends)

/-- **The table of a prepared checker** holds the functions that were defined, in order and under
different names, each over itself and earlier ones; the called functions of a term, for which a
definition is checked, are those it applies, each once. If none of the functions applies itself,
calls and terms over them come to an end, and never at an unknown name. -/
theorem prepare_table (fresh : c.functions = .empty) {rs : List Request} {log : Log}
    (h : c.prepare rs = (log, c')) :
    let t := c'.functions
    t.Stratified ∧ t.names.Nodup ∧ t.defs = log.defined ∧
    (∀ c r err, (Request.on c r).1 = .error err → (Request.on c r).2 = c) ∧
    (∀ e : Term, e.calledFunctions.Nodup ∧ ∀ f, f ∈ e.calledFunctions ↔ e.Applies f) ∧
    (t.NoneAppliesItself → t.NonRecursive ∧
      (∀ f ∈ t.names, ∀ args, Ends (t.call f args) ∧
        ∀ n, t.size < n → t.callWithin n f args = t.call f args) ∧
      ∀ env e, OnApplied (· ∈ t.names) e → Ends (t.eval env e)) := by
  have hstratified := stratified_prepare (fresh ▸ FunctionTable.stratified_empty) rs
  have hdefs := defs_prepare c rs
  rw [h] at hstratified hdefs
  rw [fresh] at hdefs
  refine ⟨hstratified, c'.functions.distinct, hdefs, fun _ _ _ => Request.on_eq_of_error,
    fun e => ⟨e.nodup_calledFunctions, fun _ => Term.mem_calledFunctions_iff⟩, fun hself => ?_⟩
  have hrec := hstratified.nonRecursive hself
  exact ⟨hrec, fun f hf args => ⟨hstratified.ends_call hself hf args, fun n hn =>
    congrFun (hrec.callWithin_eq_call hn) args⟩, fun env e he => hstratified.ends_eval hself he env⟩

/-- The functions are asked for before there are bounds, in the wrong order and in the right one. -/
def doublingRequests : List Request :=
  let define := FunctionTable.doubling.defs.map .define
  define ++ .declare ⟨1, 1, 1⟩ :: define.reverse ++ define

/-- Each function is taken once it can be. -/
def doublingLog : Log := doublingRequests.zip
  [.error .notDeclared, .error .notDeclared, .ok (), .error (.eval (.unknownFunction "double")),
    .ok (), .error (.alreadyDefined "double"), .ok ()]

def doublingChecker : Checker := ⟨some ⟨1, 1, 1⟩, .doubling, 5, none⟩

theorem calledFunctions_doubling :
    FunctionTable.doubling.defs.map (·.body.calledFunctions) = [[], ["double"]] := by cbv

theorem prepare_doubling :
    (ofBudget 5).prepare doublingRequests = (doublingLog, doublingChecker) := by
  have hcalled := calledFunctions_doubling
  simp only [FunctionTable.doubling, List.map_cons, List.map_nil, List.cons.injEq, and_true]
    at hcalled
  simp only [doublingRequests, FunctionTable.doubling, List.map_cons, List.map_nil,
    List.reverse_cons, List.reverse_nil, List.nil_append, List.cons_append, prepare_cons,
    Request.on, Preparation.on_define, define, hcalled]
  rfl

theorem noneAppliesItself_doubling : FunctionTable.doubling.NoneAppliesItself :=
  of_decide_eq_true (by cbv)

/-- A call of the function that was refused at first ends, even with the wrong arguments. -/
theorem prepare_table_doubling : (ofBudget 5).functions = .empty ∧
    (ofBudget 5).prepare doublingRequests = (doublingLog, doublingChecker) ∧
    doublingChecker.functions.NoneAppliesItself ∧
    ∀ args, Ends (doublingChecker.functions.call "quadruple" args) := by
  obtain ⟨-, -, -, -, -, hends⟩ := prepare_table rfl prepare_doubling
  obtain ⟨-, hcalls, -⟩ := hends noneAppliesItself_doubling
  exact ⟨rfl, prepare_doubling, noneAppliesItself_doubling, fun args =>
    (hcalls "quadruple" (by decide) args).1⟩

end Checker

end SortedRewriting
