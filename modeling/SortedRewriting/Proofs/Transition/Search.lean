import SortedRewriting.Transition.Search

/-!
# The bounded search is exact

`Graph.search` against runs of the graph (`Graph.Run`), whose steps are listed latest first.

The invariant of a layer at depth `d` (`Graph.Frontier`): its visits are runs of `d` steps, the
states met so far are exactly those within `d` steps, each of them is in the layer unless a shorter
run leads to it, and no shorter run leads to a target. Expanding a layer passes through sets of
states that are partly grown (`Graph.Grown`).

* **`search_verdict`**: a target that is found has a shortest run, an exhausted search leaves no
  target within the bound, and a search over its budget has met more states than the budget. A
  search fails only where a step or a target test of a reachable state does.
-/

namespace SortedRewriting.Graph

variable {σ ι ε : Type}

/-! ## Runs -/

/-- A run of the graph: the steps that lead to a state, latest first. -/
inductive Run (g : Graph σ ι ε) : List (σ × ι) → σ → Prop
  | start : Run g [] g.start
  | step {trail s c s'} (run : Run g trail s) (choice : c ∈ g.choices)
      (next : g.step s c = .ok s') : Run g ((s, c) :: trail) s'

/-- A run of at most `n` steps leads to the state. -/
def Within (g : Graph σ ι ε) (n : Nat) (s : σ) : Prop := ∃ trail, g.Run trail s ∧ trail.length ≤ n

/-- More than `k` states are reached by runs of at most `n` steps. -/
def ManyWithin (g : Graph σ ι ε) (n k : Nat) : Prop :=
  ∃ states : List σ, states.Nodup ∧ k < states.length ∧ ∀ s ∈ states, g.Within n s

/-- A step or the target test of a state on a run fails. -/
def FailsWith (g : Graph σ ι ε) (e : ε) : Prop :=
  ∃ trail s, g.Run trail s ∧ ((∃ c ∈ g.choices, g.step s c = .error e) ∨ g.isTarget s = .error e)

/-- What the answer of a search says about the runs of the graph. -/
def Verdict (g : Graph σ ι ε) (budget bound : Nat) : Except ε (SearchResult σ ι) → Prop
  | .ok (.found v) => g.Run v.trail v.state ∧ v.trail.length ≤ bound ∧
      g.isTarget v.state = .ok true ∧
      ∀ trail s, g.Run trail s → g.isTarget s = .ok true → v.trail.length ≤ trail.length
  | .ok .exhausted => ∀ trail s, g.Run trail s → trail.length ≤ bound → g.isTarget s ≠ .ok true
  | .ok (.overBudget _) => g.ManyWithin bound budget
  | .error e => g.FailsWith e

variable {g : Graph σ ι ε} {n n' k depth budget : Nat}

theorem Within.mono {s : σ} (h : g.Within n s) (hn : n ≤ n') : g.Within n' s := by
  obtain ⟨trail, hrun, hlen⟩ := h
  exact ⟨trail, hrun, Nat.le_trans hlen hn⟩

theorem Within.next {s s' : σ} {c : ι} (h : g.Within n s) (hc : c ∈ g.choices)
    (hs : g.step s c = .ok s') : g.Within (n + 1) s' := by
  obtain ⟨trail, hrun, hlen⟩ := h
  exact ⟨_, .step hrun hc hs, Nat.succ_le_succ hlen⟩

theorem ManyWithin.mono (h : g.ManyWithin n k) (hn : n ≤ n') : g.ManyWithin n' k := by
  obtain ⟨states, hnodup, hlen, hall⟩ := h
  exact ⟨states, hnodup, hlen, fun s hs => (hall s hs).mono hn⟩

/-- Once a depth adds no state, no later depth does. -/
theorem within_of_closed (hclosed : ∀ s, g.Within (depth + 1) s → g.Within depth s) {trail : List (σ × ι)}
    {s : σ} (hrun : g.Run trail s) : g.Within depth s := by
  induction hrun with
  | start => exact ⟨[], .start, Nat.zero_le _⟩
  | step _ hc hs ih => exact hclosed _ (ih.next hc hs)

variable [BEq σ] [Hashable σ]

/-! ## Expanding a layer -/

/-- The states met while the layer at a depth is being expanded: all within one step more, and new
ones among the visits of the next layer. -/
structure Grown (g : Graph σ ι ε) (depth : Nat) (seen : Std.HashSet σ) (next : List (Visit σ ι)) :
    Prop where
  within : ∀ s, s ∈ seen → g.Within (depth + 1) s
  run : ∀ w ∈ next, g.Run w.trail w.state ∧ w.trail.length = depth + 1
  fresh : ∀ s, s ∈ seen → g.Within depth s ∨ ∃ w ∈ next, w.state = s

/-- What expanding by some choices answers, if `closed` says that they are all accounted for. -/
def Expanded (g : Graph σ ι ε) (budget depth : Nat) (seen : Std.HashSet σ)
    (closed : Std.HashSet σ → Prop) : Except ε (Layer σ ι) → Prop
  | .ok (some (seen', next')) =>
    g.Grown depth seen' next' ∧ (∀ s, s ∈ seen → s ∈ seen') ∧ closed seen'
  | .ok none => g.ManyWithin (depth + 1) budget
  | .error e => g.FailsWith e

variable [LawfulBEq σ] [LawfulHashable σ]

/-- A state that the seen states lack makes one more than there are. -/
theorem manyWithin_of_new {seen : Std.HashSet σ} {s : σ} (hseen : ∀ s, s ∈ seen → g.Within n s)
    (hs : g.Within n s) (hnew : s ∉ seen) (hbudget : budget ≤ seen.size) :
    g.ManyWithin n budget := by
  refine ⟨s :: seen.toList, ?_, ?_, ?_⟩
  · rw [List.nodup_cons, Std.HashSet.mem_toList]
    refine ⟨hnew, Std.HashSet.distinct_toList.imp fun h => ?_⟩
    exact fun e => by simp [e] at h
  · rw [List.length_cons, Std.HashSet.length_toList]
    omega
  · intro s' hs'
    rcases List.mem_cons.mp hs' with rfl | hs'
    · exact hs
    · exact hseen s' (Std.HashSet.mem_toList.mp hs')

theorem Grown.insert {seen : Std.HashSet σ}
    {next : List (Visit σ ι)} {v : Visit σ ι} {c : ι} {s : σ} (h : g.Grown depth seen next)
    (hv : g.Run v.trail v.state ∧ v.trail.length = depth) (hc : c ∈ g.choices)
    (hs : g.step v.state c = .ok s) :
    g.Grown depth (seen.insert s) (⟨s, (v.state, c) :: v.trail⟩ :: next) := by
  have hrun : g.Run ((v.state, c) :: v.trail) s := .step hv.1 hc hs
  have hlen : ((v.state, c) :: v.trail).length = depth + 1 := by rw [List.length_cons, hv.2]
  refine ⟨fun z hz => ?_, fun w hw => ?_, fun z hz => ?_⟩
  · rcases Std.HashSet.mem_insert.mp hz with hz | hz
    · rw [← eq_of_beq hz]
      exact ⟨_, hrun, Nat.le_of_eq hlen⟩
    · exact h.within z hz
  · rcases List.mem_cons.mp hw with rfl | hw
    · exact ⟨hrun, hlen⟩
    · exact h.run w hw
  · rcases Std.HashSet.mem_insert.mp hz with hz | hz
    · exact .inr ⟨_, List.mem_cons_self, eq_of_beq hz⟩
    · rcases h.fresh z hz with hz | ⟨w, hw, rfl⟩
      · exact .inl hz
      · exact .inr ⟨w, List.mem_cons_of_mem _ hw, rfl⟩

omit [LawfulBEq σ] [LawfulHashable σ] in
/-- An expansion that starts from more states, and accounts for more of them, answers as well. -/
theorem Expanded.weaken {seen seen₁ : Std.HashSet σ} {closed closed₁ : Std.HashSet σ → Prop}
    {r : Except ε (Layer σ ι)} (h : g.Expanded budget depth seen₁ closed₁ r)
    (hsub : ∀ s, s ∈ seen → s ∈ seen₁)
    (hclosed : ∀ seen', (∀ s, s ∈ seen₁ → s ∈ seen') → closed₁ seen' → closed seen') :
    g.Expanded budget depth seen closed r := by
  match r, h with
  | .ok (some (seen', _)), ⟨hgrown, hsub', hclosed'⟩ =>
    exact ⟨hgrown, fun s hs => hsub' s (hsub s hs), hclosed seen' hsub' hclosed'⟩
  | .ok none, h => exact h
  | .error _, h => exact h

/-- Expanding a state of the layer: each choice leads to a state that has been met. -/
theorem expand_spec {v : Visit σ ι} (hv : g.Run v.trail v.state ∧ v.trail.length = depth) :
    ∀ (cs : List ι) (seen : Std.HashSet σ) (next : List (Visit σ ι)), (∀ c ∈ cs, c ∈ g.choices) →
      g.Grown depth seen next →
      g.Expanded budget depth seen (fun seen' => ∀ c ∈ cs, ∃ s, g.step v.state c = .ok s ∧ s ∈ seen')
        (g.expand budget v cs seen next)
  | [], seen, next, _, hgrown => ⟨hgrown, fun _ h => h, fun _ h => absurd h List.not_mem_nil⟩
  | c :: cs, seen, next, hcs, hgrown => by
    have hc : c ∈ g.choices := hcs c List.mem_cons_self
    have hcs' : ∀ c' ∈ cs, c' ∈ g.choices := fun c' h => hcs c' (List.mem_cons_of_mem _ h)
    unfold expand
    cases hs : g.step v.state c with
    | error e => exact ⟨v.trail, v.state, hv.1, .inl ⟨c, hc, hs⟩⟩
    | ok s =>
      -- whatever set the other choices start from, it holds `s`
      have close : ∀ {seen₁ seen' : Std.HashSet σ}, s ∈ seen₁ → (∀ z, z ∈ seen₁ → z ∈ seen') →
          (∀ c' ∈ cs, ∃ z, g.step v.state c' = .ok z ∧ z ∈ seen') →
          ∀ c' ∈ c :: cs, ∃ z, g.step v.state c' = .ok z ∧ z ∈ seen' := by
        intro seen₁ seen' hmem hsub hclosed c' hc'
        rcases List.mem_cons.mp hc' with rfl | hc'
        · exact ⟨s, hs, hsub s hmem⟩
        · exact hclosed c' hc'
      show g.Expanded budget depth seen _ (if seen.contains s then _ else _)
      split
      · rename_i hin
        exact (expand_spec hv cs seen next hcs' hgrown).weaken (fun _ h => h)
          (fun _ => close (Std.HashSet.mem_iff_contains.mpr hin))
      · rename_i hout
        have hwithin : g.Within (depth + 1) s :=
          ⟨_, .step hv.1 hc hs, Nat.le_of_eq (by rw [List.length_cons, hv.2])⟩
        split
        · rename_i hbudget
          exact manyWithin_of_new hgrown.within hwithin
            (fun h => hout (Std.HashSet.mem_iff_contains.mp h)) hbudget
        · exact (expand_spec hv cs _ _ hcs' (hgrown.insert hv hc hs)).weaken
            (fun z hz => Std.HashSet.mem_insert.mpr (.inr hz))
            (fun _ => close Std.HashSet.mem_insert_self)

/-- Expanding a layer: each choice at each of its states leads to a state that has been met. -/
theorem expandAll_spec : ∀ (layer : List (Visit σ ι)) (seen : Std.HashSet σ)
    (next : List (Visit σ ι)), (∀ v ∈ layer, g.Run v.trail v.state ∧ v.trail.length = depth) →
    g.Grown depth seen next →
    g.Expanded budget depth seen
      (fun seen' => ∀ v ∈ layer, ∀ c ∈ g.choices, ∃ s, g.step v.state c = .ok s ∧ s ∈ seen')
      (g.expandAll budget layer seen next)
  | [], seen, next, _, hgrown => ⟨hgrown, fun _ h => h, fun _ h => absurd h List.not_mem_nil⟩
  | v :: vs, seen, next, hlayer, hgrown => by
    have hv := hlayer v List.mem_cons_self
    have hvs : ∀ w ∈ vs, g.Run w.trail w.state ∧ w.trail.length = depth :=
      fun w h => hlayer w (List.mem_cons_of_mem _ h)
    have hfirst : g.Expanded budget depth seen _ (g.expand budget v g.choices seen next) :=
      expand_spec hv g.choices seen next (fun _ h => h) hgrown
    unfold expandAll
    cases he : g.expand budget v g.choices seen next with
    | error e =>
      rw [he] at hfirst
      exact hfirst
    | ok layer =>
      rw [he] at hfirst
      cases layer with
      | none => exact hfirst
      | some grown =>
        obtain ⟨hgrown₁, hsub₁, hclosed₁⟩ := hfirst
        refine (expandAll_spec vs grown.1 grown.2 hvs hgrown₁).weaken hsub₁
          (fun seen' hsub hclosed w hw c hc => ?_)
        rcases List.mem_cons.mp hw with rfl | hw
        · obtain ⟨s, hs, hmem⟩ := hclosed₁ c hc
          exact ⟨s, hs, hsub s hmem⟩
        · exact hclosed w hw c hc

/-! ## The layers of the search -/

/-- The invariant of the search before the layer at a depth is tested. -/
structure Frontier (g : Graph σ ι ε) (depth : Nat) (seen : Std.HashSet σ)
    (layer : List (Visit σ ι)) : Prop where
  run : ∀ v ∈ layer, g.Run v.trail v.state ∧ v.trail.length = depth
  seen : ∀ s, s ∈ seen ↔ g.Within depth s
  covered : ∀ s, g.Within depth s → (∃ v ∈ layer, v.state = s) ∨
    ∃ trail, g.Run trail s ∧ trail.length < depth
  earlier : ∀ trail s, g.Run trail s → trail.length < depth → g.isTarget s ≠ .ok true

omit [BEq σ] [Hashable σ] [LawfulBEq σ] [LawfulHashable σ] in
/-- Testing a layer finds the first target in it, if there is one. -/
theorem findTarget_spec : ∀ layer : List (Visit σ ι),
    match g.findTarget layer with
    | .ok (some v) => v ∈ layer ∧ g.isTarget v.state = .ok true
    | .ok none => ∀ v ∈ layer, g.isTarget v.state ≠ .ok true
    | .error e => ∃ v ∈ layer, g.isTarget v.state = .error e
  | [] => fun _ h => absurd h List.not_mem_nil
  | v :: vs => by
    unfold findTarget
    cases hv : g.isTarget v.state with
    | error e => exact ⟨v, List.mem_cons_self, hv⟩
    | ok b =>
      cases b with
      | true => exact ⟨List.mem_cons_self, hv⟩
      | false =>
        have ih := findTarget_spec vs
        show match g.findTarget vs with
          | .ok (some v) => _
          | .ok none => _
          | .error e => _
        split at ih
        · exact ⟨List.mem_cons_of_mem _ ih.1, ih.2⟩
        · intro w hw
          rcases List.mem_cons.mp hw with rfl | hw
          · simp [hv]
          · exact ih w hw
        · obtain ⟨w, hw, he⟩ := ih
          exact ⟨w, List.mem_cons_of_mem _ hw, he⟩

omit [LawfulBEq σ] [LawfulHashable σ] in
/-- No run up to the depth of a tested layer leads to a target. -/
theorem Frontier.not_target {seen : Std.HashSet σ} {layer : List (Visit σ ι)}
    (h : g.Frontier depth seen layer) (hlayer : ∀ v ∈ layer, g.isTarget v.state ≠ .ok true)
    {s : σ} (hs : g.Within depth s) : g.isTarget s ≠ .ok true := by
  rcases h.covered s hs with ⟨v, hv, rfl⟩ | ⟨trail, hrun, hlen⟩
  · exact hlayer v hv
  · exact h.earlier trail s hrun hlen

omit [LawfulBEq σ] [LawfulHashable σ] in
/-- The states within a depth are partly grown already, without a visit of the next layer. -/
theorem Frontier.grown {seen : Std.HashSet σ} {layer : List (Visit σ ι)}
    (h : g.Frontier depth seen layer) : g.Grown depth seen [] :=
  ⟨fun s hs => ((h.seen s).mp hs).mono (Nat.le_succ _), fun _ hw => absurd hw List.not_mem_nil,
    fun s hs => .inl ((h.seen s).mp hs)⟩

omit [LawfulBEq σ] [LawfulHashable σ] in
/-- **The step from a layer to the next.** -/
theorem Frontier.advance {seen seen' : Std.HashSet σ} {layer next : List (Visit σ ι)}
    (h : g.Frontier depth seen layer) (hlayer : ∀ v ∈ layer, g.isTarget v.state ≠ .ok true)
    (hgrown : g.Grown depth seen' next) (hsub : ∀ s, s ∈ seen → s ∈ seen')
    (hclosed : ∀ v ∈ layer, ∀ c ∈ g.choices, ∃ s, g.step v.state c = .ok s ∧ s ∈ seen') :
    g.Frontier (depth + 1) seen' next.reverse := by
  have hseen : ∀ s, g.Within (depth + 1) s → s ∈ seen' := by
    rintro s ⟨trail, hrun, hlen⟩
    cases hrun with
    | start => exact hsub _ ((h.seen _).mpr ⟨[], .start, Nat.zero_le _⟩)
    | @step trail z c _ hrun hc hs =>
      have hlen' : trail.length ≤ depth := Nat.le_of_succ_le_succ hlen
      rcases h.covered z ⟨trail, hrun, hlen'⟩ with ⟨v, hv, rfl⟩ | ⟨shorter, hrun', hlt⟩
      · obtain ⟨s', hs', hmem⟩ := hclosed v hv c hc
        rw [hs] at hs'
        cases hs'
        exact hmem
      · exact hsub s ((h.seen s).mpr ⟨_, .step hrun' hc hs, hlt⟩)
  refine ⟨fun v hv => hgrown.run v (List.mem_reverse.mp hv), fun s => ⟨hgrown.within s, hseen s⟩,
    fun s hs => ?_, fun trail s hrun hlt => ?_⟩
  · rcases hgrown.fresh s (hseen s hs) with ⟨trail, hrun, hlen⟩ | ⟨w, hw, rfl⟩
    · exact .inr ⟨trail, hrun, Nat.lt_succ_of_le hlen⟩
    · exact .inl ⟨w, List.mem_reverse.mpr hw, rfl⟩
  · exact h.not_target hlayer ⟨trail, hrun, Nat.le_of_lt_succ hlt⟩

/-- The search from a layer on, with `n` steps left. -/
theorem searchFrom_verdict : ∀ (n depth : Nat) (seen : Std.HashSet σ) (layer : List (Visit σ ι)),
    g.Frontier depth seen layer →
    g.Verdict budget (depth + n) (g.searchFrom budget n depth seen layer)
  | n, depth, seen, layer, h => by
    have htest := findTarget_spec (g := g) layer
    unfold searchFrom
    cases hf : g.findTarget layer with
    | error e =>
      rw [hf] at htest
      obtain ⟨v, hv, he⟩ := htest
      exact ⟨v.trail, v.state, (h.run v hv).1, .inr he⟩
    | ok found =>
      rw [hf] at htest
      cases found with
      | some v =>
        obtain ⟨hrun, hlen⟩ := h.run v htest.1
        refine ⟨hrun, by omega, htest.2, fun trail s hrun' htarget => ?_⟩
        rw [hlen]
        exact Nat.le_of_not_lt fun hlt => h.earlier trail s hrun' hlt htarget
      | none =>
        cases n with
        | zero => exact fun trail s hrun hlen => h.not_target htest ⟨trail, hrun, hlen⟩
        | succ n =>
          have hexpand : g.Expanded budget depth seen _ (g.expandAll budget layer seen []) :=
            expandAll_spec layer seen [] h.run h.grown
          show g.Verdict budget (depth + (n + 1)) (g.expandAll budget layer seen [] >>= _)
          cases he : g.expandAll budget layer seen [] with
          | error e =>
            rw [he] at hexpand
            exact hexpand
          | ok grown =>
            rw [he] at hexpand
            rcases grown with _ | ⟨seen', _ | ⟨w, next⟩⟩
            · exact ManyWithin.mono hexpand (by omega)
            · obtain ⟨hgrown, hsub, hclosed⟩ := hexpand
              have hnext := h.advance htest hgrown hsub hclosed
              refine fun trail s hrun _ => h.not_target htest (within_of_closed (fun z hz => ?_) hrun)
              rcases hgrown.fresh z ((hnext.seen z).mpr hz) with hz' | ⟨w, hw, _⟩
              · exact hz'
              · exact absurd hw List.not_mem_nil
            · obtain ⟨hgrown, hsub, hclosed⟩ := hexpand
              have hrest := searchFrom_verdict n (depth + 1) seen' (w :: next).reverse
                (h.advance htest hgrown hsub hclosed)
              rwa [Nat.add_right_comm, Nat.add_assoc] at hrest

/-- At depth zero the start is all there is. -/
theorem frontier_start :
    g.Frontier 0 ((∅ : Std.HashSet σ).insert g.start) [⟨g.start, []⟩] := by
  have only_start : ∀ s, g.Within 0 s ↔ s = g.start := by
    intro s
    constructor
    · rintro ⟨trail, hrun, hlen⟩
      cases hrun with
      | start => rfl
      | step => simp at hlen
    · rintro rfl
      exact ⟨[], .start, Nat.le_refl _⟩
  refine ⟨fun v hv => ?_, fun s => ?_, fun s hs => ?_, fun _ _ _ h => absurd h (Nat.not_lt_zero _)⟩
  · rw [List.mem_singleton.mp hv]
    exact ⟨.start, rfl⟩
  · rw [only_start, Std.HashSet.mem_insert, beq_iff_eq]
    simp [eq_comm]
  · rw [(only_start s).mp hs]
    exact .inl ⟨_, List.mem_cons_self, rfl⟩

/-- **The bounded search is exact.** -/
theorem search_verdict (g : Graph σ ι ε) (budget bound : Nat) :
    g.Verdict budget bound (g.search budget bound) := by
  have h : g.Verdict budget (0 + bound) (g.search budget bound) :=
    searchFrom_verdict bound 0 _ _ frontier_start
  rwa [Nat.zero_add] at h

end SortedRewriting.Graph
