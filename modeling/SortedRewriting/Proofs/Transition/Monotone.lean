import SortedRewriting.Proofs.Transition.Checker

/-!
# Larger bounds and budgets

A search with a larger bound or a larger budget goes through the same layers as one with smaller
limits, as long as both go on. So it answers the same, unless the smaller limit has ended the other.

* `Graph.searchFrom_bound`: a larger bound makes a difference to exhausted searches only.
* `Graph.searchFrom_budget`: a larger budget makes one to searches that gave up only.
* **`Checker.check_monotone`**: a witness stays the very same with larger limits, and an unreachable
  target stays unreachable with a larger budget, within every smaller bound.
-/

namespace SortedRewriting

namespace Graph

variable {σ ι ε : Type} [BEq σ] [Hashable σ] {g : Graph σ ι ε} {budget budget' n n' depth : Nat}
  {seen : Std.HashSet σ} {layer : List (Visit σ ι)}

/-! ## One layer -/

/-- A target in a layer, or a failed test, ends the search, whatever its limits. -/
theorem searchFrom_of_ne (hf : g.findTarget layer ≠ .ok none) :
    g.searchFrom budget' n' depth seen layer = g.searchFrom budget n depth seen layer := by
  rw [searchFrom.eq_def, searchFrom.eq_def g budget n]
  cases h : g.findTarget layer with
  | error e => simp only [h]; rfl
  | ok found =>
    cases found with
    | none => exact absurd h hf
    | some v => simp only [h]; rfl

/-- Where no step is left, a layer without a target is the last one. -/
theorem searchFrom_zero (hf : g.findTarget layer = .ok none) :
    g.searchFrom budget 0 depth seen layer = .ok .exhausted := by
  rw [searchFrom, hf]
  rfl

/-- In a layer without states there is nothing to find. -/
theorem searchFrom_nil : g.searchFrom budget n depth seen [] = .ok .exhausted := by
  cases n with
  | zero => exact searchFrom_zero rfl
  | succ n =>
    rw [searchFrom]
    rfl

/-- From a layer without a target the search goes on to the next. That it stops at one without
states does not show. -/
theorem searchFrom_succ (hf : g.findTarget layer = .ok none) :
    g.searchFrom budget (n + 1) depth seen layer =
      match g.expandAll budget layer seen [] with
      | .error e => .error e
      | .ok none => .ok (.overBudget (depth + 1))
      | .ok (some (seen, next)) => g.searchFrom budget n (depth + 1) seen next.reverse := by
  rw [searchFrom, hf]
  show (g.expandAll budget layer seen [] >>= _) = _
  obtain _ | _ | ⟨_, _ | _⟩ := g.expandAll budget layer seen []
  · rfl
  · rfl
  · exact searchFrom_nil.symm
  · rfl

/-! ## A larger bound -/

/-- **With a larger bound the search answers the same**, unless the smaller one has ended it. -/
theorem searchFrom_bound (hn : n ≤ n') :
    g.searchFrom budget n depth seen layer = .ok .exhausted ∨
      g.searchFrom budget n' depth seen layer = g.searchFrom budget n depth seen layer := by
  induction n generalizing n' depth seen layer with
  | zero =>
    by_cases hf : g.findTarget layer = .ok none
    · exact .inl (searchFrom_zero hf)
    · exact .inr (searchFrom_of_ne hf)
  | succ n ih =>
    by_cases hf : g.findTarget layer = .ok none
    · obtain ⟨n', rfl⟩ := Nat.exists_eq_add_of_le' hn
      rw [← Nat.add_assoc, searchFrom_succ hf, searchFrom_succ hf]
      obtain _ | _ | ⟨seen, next⟩ := g.expandAll budget layer seen []
      · exact .inr rfl
      · exact .inr rfl
      · exact ih (Nat.le_add_left n n')
    · exact .inr (searchFrom_of_ne hf)

/-! ## A larger budget -/

/-- With a larger budget a state is expanded in the same way, if the smaller one suffices. -/
theorem expand_budget (hb : budget ≤ budget') (v : Visit σ ι) (cs : List ι)
    (seen : Std.HashSet σ) (next : List (Visit σ ι)) :
    g.expand budget v cs seen next = .ok none ∨
      g.expand budget' v cs seen next = g.expand budget v cs seen next := by
  induction cs generalizing seen next with
  | nil => exact .inr rfl
  | cons c cs ih =>
    unfold expand
    cases g.step v.state c with
    | error e => exact .inr rfl
    | ok s =>
      show (if seen.contains s then _ else _) = _ ∨
        (if seen.contains s then _ else _) = (if seen.contains s then _ else _)
      split
      · exact ih seen next
      · by_cases hfull : budget ≤ seen.size
        · exact .inl (if_pos hfull)
        · rw [if_neg hfull, if_neg (by omega)]
          exact ih _ _

/-- So is a layer. -/
theorem expandAll_budget (hb : budget ≤ budget') (layer : List (Visit σ ι))
    (seen : Std.HashSet σ) (next : List (Visit σ ι)) :
    g.expandAll budget layer seen next = .ok none ∨
      g.expandAll budget' layer seen next = g.expandAll budget layer seen next := by
  induction layer generalizing seen next with
  | nil => exact .inr rfl
  | cons v layer ih =>
    unfold expandAll
    rcases g.expand_budget hb v g.choices seen next with hover | hsame
    · exact .inl (by rw [hover]; rfl)
    · rw [hsame]
      obtain _ | _ | ⟨seen, next⟩ := g.expand budget v g.choices seen next
      · exact .inr rfl
      · exact .inl rfl
      · exact ih seen next

/-- **With a larger budget the search answers the same**, unless it gave up with the smaller one. -/
theorem searchFrom_budget (hb : budget ≤ budget') :
    (∃ d, g.searchFrom budget n depth seen layer = .ok (.overBudget d)) ∨
      g.searchFrom budget' n depth seen layer = g.searchFrom budget n depth seen layer := by
  induction n generalizing depth seen layer with
  | zero =>
    by_cases hf : g.findTarget layer = .ok none
    · exact .inr (by rw [searchFrom_zero hf, searchFrom_zero hf])
    · exact .inr (searchFrom_of_ne hf)
  | succ n ih =>
    by_cases hf : g.findTarget layer = .ok none
    · rw [searchFrom_succ hf, searchFrom_succ hf]
      rcases g.expandAll_budget hb layer seen [] with hover | hsame
      · exact .inl ⟨depth + 1, by rw [hover]⟩
      · rw [hsame]
        obtain _ | _ | ⟨seen, next⟩ := g.expandAll budget layer seen []
        · exact .inr rfl
        · exact .inl ⟨depth + 1, rfl⟩
        · exact ih
    · exact .inr (searchFrom_of_ne hf)

theorem search_bound (g : Graph σ ι ε) (budget : Nat) (hn : n ≤ n') :
    g.search budget n = .ok .exhausted ∨ g.search budget n' = g.search budget n :=
  searchFrom_bound hn

theorem search_budget (g : Graph σ ι ε) (n : Nat) (hb : budget ≤ budget') :
    (∃ d, g.search budget n = .ok (.overBudget d)) ∨ g.search budget' n = g.search budget n :=
  searchFrom_budget hb

/-- A target that is found is found by the same run with larger limits. -/
theorem search_found_mono {v : Visit σ ι} (hn : n ≤ n') (hb : budget ≤ budget')
    (h : g.search budget n = .ok (.found v)) : g.search budget' n' = .ok (.found v) := by
  have hbudget : g.search budget' n = .ok (.found v) := by
    rcases g.search_budget n hb with ⟨_, hover⟩ | hsame
    · cases h.symm.trans hover
    · exact hsame.trans h
  rcases g.search_bound budget' hn with hexhausted | hsame
  · cases hbudget.symm.trans hexhausted
  · exact hsame.trans hbudget

/-- A search that is exhausted is so with a larger budget, within every smaller bound. -/
theorem search_exhausted_mono (hn : n ≤ n') (hb : budget ≤ budget')
    (h : g.search budget n' = .ok .exhausted) : g.search budget' n = .ok .exhausted := by
  have hbudget : g.search budget' n' = .ok .exhausted := by
    rcases g.search_budget n' hb with ⟨_, hover⟩ | hsame
    · cases h.symm.trans hover
    · exact hsame.trans h
  rcases g.search_bound budget' hn with hexhausted | hsame
  · exact hexhausted
  · exact hsame.symm.trans hbudget

end Graph

namespace Checker

variable {c : Checker} {s : TransitionSystem} {n n' k : Nat}

/-- The checker with another budget of states. -/
def withBudget (c : Checker) (k : Nat) : Checker := { c with maxStates := k }

/-- Where one check is answered, all are searches of one graph, whatever their limits. -/
theorem exists_graph_of_check {outcome : Outcome} (h : c.check s n = .ok outcome) :
    ∃ g : Graph (List Value) (List Value) CheckerError, ∀ k n',
      (c.withBudget k).check s n' = (g.search k n').map (outcomeOf (c.withBudget k) s) := by
  cases hb : c.bounds? with
  | none =>
    unfold check at h
    rw [hb] at h
    cases h
  | some b =>
    obtain ⟨target, choices, start, hvalid, hchoices, hstart⟩ := valid_of_check hb h
    exact ⟨c.graph s target start choices, fun k n' =>
      check_eq_search (c := c.withBudget k) hb hvalid hchoices hstart⟩

theorem map_outcomeOf_eq_reachable_iff {r : Except CheckerError (SearchResult _ _)} {w : Witness} :
    r.map (outcomeOf c s) = .ok (.reachable w) ↔ ∃ v, r = .ok (.found v) ∧ witnessOf s v = w := by
  constructor
  · intro h
    match r, h with
    | .ok (.found v), h => exact ⟨v, rfl, Outcome.reachable.inj (Except.ok.inj h)⟩
  · rintro ⟨v, rfl, rfl⟩
    rfl

theorem map_outcomeOf_eq_unreachable_iff {r : Except CheckerError (SearchResult _ _)} :
    r.map (outcomeOf c s) = .ok .unreachable ↔ r = .ok .exhausted := by
  constructor
  · intro h
    match r, h with
    | .ok .exhausted, _ => rfl
  · rintro rfl
    rfl

/-- **Larger limits flip no verdict.** With a larger bound and a larger budget a target is reached
with the very same witness. One that is out of reach is so with a larger budget, and within every
smaller bound. -/
theorem check_monotone (hn : n ≤ n') (hk : c.maxStates ≤ k) (s : TransitionSystem) :
    (∀ w, c.check s n = .ok (.reachable w) → (c.withBudget k).check s n' = .ok (.reachable w)) ∧
    (c.check s n' = .ok .unreachable → (c.withBudget k).check s n = .ok .unreachable) := by
  constructor
  · intro w h
    obtain ⟨g, hg⟩ := exists_graph_of_check h
    obtain ⟨v, hv, rfl⟩ := map_outcomeOf_eq_reachable_iff.mp ((hg c.maxStates n).symm.trans h)
    rw [hg]
    exact map_outcomeOf_eq_reachable_iff.mpr ⟨v, Graph.search_found_mono hn hk hv, rfl⟩
  · intro h
    obtain ⟨g, hg⟩ := exists_graph_of_check h
    have hv := map_outcomeOf_eq_unreachable_iff.mp ((hg c.maxStates n').symm.trans h)
    rw [hg]
    exact map_outcomeOf_eq_unreachable_iff.mpr (Graph.search_exhausted_mono hn hk hv)

/-- The target `n = 5`. -/
def distantTarget : Term := .eq 6 (.var 1 "n" .int) (.const 7 (.int 5))

/-- The counter with this target. -/
def distantCounter : TransitionSystem := { counter with target? := some distantTarget }

theorem distantCounter_holds :
    counterChecker.holds distantCounter distantTarget [.int 0] = .ok false ∧
      counterChecker.holds distantCounter distantTarget [.int 1] = .ok false := by
  simp only [holds, FunctionTable.eval_eq_valueIn]
  exact ⟨rfl, rfl⟩

theorem distantCounter_search :
    (counterChecker.graph distantCounter distantTarget [.int 0]
      [[.bool false], [.bool true]]).search 10 1 = .ok .exhausted := by
  have hnext : ∀ go, counterChecker.stateValues distantCounter .next
      (bindBoth distantCounter [.int 0] [.bool go]) = .ok [.int (if go then 1 else 0)] := counter_next
  simp [Graph.search, Graph.searchFrom, Graph.findTarget, Graph.expandAll, Graph.expand, graph,
    hnext, distantCounter_holds, Std.HashSet.size_insert, Bind.bind, Except.bind, pure, Except.pure]

theorem distantCounter_check : counterChecker.check distantCounter 1 = .ok .unreachable := by
  have hchoices : inputCombinations ⟨1, 1, 1⟩ distantCounter = .ok [[.bool false], [.bool true]] := rfl
  rw [check_eq_search rfl rfl hchoices counter_init]
  show (Graph.search _ 10 1).map _ = _
  rw [distantCounter_search]
  rfl

/-- The counter takes one step to its target within larger limits too, and what is five steps away
is out of reach within smaller ones. -/
theorem check_monotone_counter :
    (counterChecker.withBudget 50).check counter 9 = .ok (.reachable counterWitness) ∧
      (counterChecker.withBudget 50).check distantCounter 0 = .ok .unreachable :=
  ⟨(check_monotone (by decide) (by decide) counter).1 counterWitness counter_check,
    (check_monotone (by decide) (by decide) distantCounter).2 distantCounter_check⟩

end Checker

end SortedRewriting
