import SortedRewriting.Proofs.Trace.Replay
import SortedRewriting.Trace.Editing

/-!
# Edited traces replay

The version of a trace may stand anywhere in its steps, and the steps after it are kept until the
next one is recorded. What holds of every trace that is edited (`Trace.History`) is said of all its
steps: each starts where the one before it ends, with a step counter that is its number, and is a
rewrite of the engine.

* `Trace.History.record`, `Trace.History.rollBack`: every edit keeps this.
* `Trace.History.replayTo`: a trace of which it holds replays up to every version.
* **`Trace.edited_history`**: so do all traces that are edited, by whatever requests.
-/

namespace SortedRewriting

/-! ## Histories -/

/-- A step that a trace may record at a tree: a rewrite of it to a tree that decodes, with the
fingerprints of both. -/
structure TraceStep.Follows (e : Engine) (x : Tree) (s : TraceStep) : Prop where
  pre : s.pre = x.fingerprint
  rewrite : e.rewrite x s.tag s.path s.step = .ok s.result
  ne_error : s.result ≠ .error
  post : s.post = s.result.fingerprint
  decode : e.book.decode s.result = .ok s.term

/-! ## Editing in place -/

namespace Editor

variable {e : Engine} {t t' : Trace} {tag : RuleTag} {path : Path} {err : TraceError} {v : Nat}
  {α β : Type}

theorem on_get_bind (f : Trace → Editor α) : on (get >>= f) t = on (f t) t := rfl

/-- A step is computed first, and recorded afterwards. -/
theorem on_apply : (apply e tag path).on t =
    match Trace.rewriteTree e t.current tag path (.ofNat t.version) with
    | .error err => (.error err, t)
    | .ok y =>
      if y.isError then (.error (.noLongerMatches t.version), t)
      else
        match Trace.stepBetween e tag path (.ofNat t.version) t.current y with
        | .error err => (.error err, t)
        | .ok s => (.ok s, t.record s) := by
  unfold apply
  rw [on_get_bind]
  -- the rewrite is not to be computed in the comparison of both sides
  generalize Trace.rewriteTree e t.current tag path (.ofNat t.version) = result
  cases result with
  | error err => rfl
  | ok y =>
    show on (if y.isError = true then _ else _) t = if y.isError = true then _ else _
    split
    · rfl
    · generalize Trace.stepBetween e tag path (.ofNat t.version) t.current y = step
      cases step <;> rfl

theorem on_rollBack : (rollBack v).on t =
    if t.steps.length < v then (.error .versionMismatch, t)
    else (.ok (), { t with version := v }) := by
  unfold rollBack
  show on (if t.steps.length < v then _ else _) t = _
  split <;> rfl

/-- What is done in place is what is computed. -/
theorem apply_eq_on : t.apply e tag path =
    ((apply e tag path).on t).1.map fun _ => ((apply e tag path).on t).2 := by
  rw [on_apply]
  show (Trace.rewriteTree e t.current tag path (.ofNat t.version) >>= _) = _
  cases Trace.rewriteTree e t.current tag path (.ofNat t.version) with
  | error err => rfl
  | ok y =>
    show (if y.isError = true then _ else _) = _
    by_cases herror : y.isError = true
    · simp only [if_pos herror]
      rfl
    · simp only [if_neg herror]
      cases Trace.stepBetween e tag path (.ofNat t.version) t.current y <;> rfl

theorem rollBack_eq_on : t.rollBack v =
    ((rollBack v).on t).1.map fun _ => ((rollBack v).on t).2 := by
  rw [on_rollBack]
  unfold Trace.rollBack
  split <;> rfl

/-- A step that is applied leads on from the current tree and takes effect in the place of those
after it; where none is, the trace stays as it is. -/
theorem on_apply_cases (e : Engine) (t : Trace) (tag : RuleTag) (path : Path) :
    (∃ s, (apply e tag path).on t = (.ok s, t.record s) ∧ s.tag = tag ∧ s.path = path ∧
      s.step = .ofNat t.version ∧ s.Follows e t.current) ∨
    ∃ err, (apply e tag path).on t = (.error err, t) := by
  rw [on_apply]
  split
  · exact .inr ⟨_, rfl⟩
  · rename_i y hy
    split
    · exact .inr ⟨_, rfl⟩
    · split
      · exact .inr ⟨_, rfl⟩
      · rename_i s hs
        obtain ⟨happlication, hpre, hpost, hterm⟩ := Trace.stepBetween_eq_ok hs
        have hrewrite := mapError_eq_ok_iff.mp hy
        obtain ⟨htag, hpath, hstep, hresult⟩ := Application.mk.inj happlication
        refine .inl ⟨s, rfl, htag, hpath, hstep, hpre, ?_, ?_, ?_, ?_⟩
        · rw [htag, hpath, hstep, hresult, hrewrite]
        · rw [hresult]
          exact Trace.ne_error_of_decodeTree hterm
        · rw [hpost, hresult]
        · rw [hresult]
          exact mapError_eq_ok_iff.mp hterm

end Editor

/-! ## Histories -/

namespace Trace

variable {e : Engine} {t : Trace} {k v i : Nat} {x y : Tree} {tag : RuleTag} {p : Path}
  {s : TraceStep} {steps : List TraceStep}

/-- The tree before step `k`, or after the last one. -/
def stateFrom (x : Tree) (steps : List TraceStep) : Nat → Option Tree
  | 0 => some x
  | k + 1 => steps[k]?.map (·.result)

/-- The tree at a version, in effect or not. -/
def state? (t : Trace) (v : Nat) : Option Tree := stateFrom t.initial t.steps v

theorem stateFrom_cons (k : Nat) :
    stateFrom x (s :: steps) (k + 1) = stateFrom s.result steps k := by
  cases k <;> rfl

theorem stateFrom_take (hv : k ≤ v) : stateFrom x (steps.take v) k = stateFrom x steps k := by
  cases k with
  | zero => rfl
  | succ k => rw [stateFrom, stateFrom, List.getElem?_take_of_lt hv]

theorem stateFrom_append (hk : k ≤ steps.length) :
    stateFrom x (steps ++ [s]) k = stateFrom x steps k := by
  cases k with
  | zero => rfl
  | succ k => rw [stateFrom, stateFrom, List.getElem?_append_left hk]

/-- A step of a list with one more at the end is of the list, or is the last. -/
theorem getElem?_concat_cases {s' : TraceStep} (h : (steps ++ [s])[k]? = some s') :
    steps[k]? = some s' ∨ k = steps.length ∧ s' = s := by
  rcases Nat.lt_or_ge k steps.length with hk | hk
  · rw [List.getElem?_append_left hk] at h
    exact .inl h
  · rw [List.getElem?_append_right hk, List.getElem?_singleton] at h
    split at h
    · rename_i hzero
      exact .inr ⟨Nat.le_antisymm (Nat.le_of_sub_eq_zero hzero) hk, (Option.some.inj h).symm⟩
    · exact absurd h nofun

/-- Steps each of which starts where the one before it ends. -/
def Linked (e : Engine) (x : Tree) (steps : List TraceStep) : Prop :=
  ∀ k s, steps[k]? = some s → ∃ y, stateFrom x steps k = some y ∧ s.Follows e y

theorem Linked.take (h : Linked e x steps) (v : Nat) : Linked e x (steps.take v) := by
  intro k s hs
  rw [List.getElem?_take] at hs
  split at hs
  · rename_i hk
    rw [stateFrom_take (Nat.le_of_lt hk)]
    exact h k s hs
  · exact absurd hs nofun

/-- One more step at the end. -/
theorem Linked.concat (h : Linked e x steps) (hy : stateFrom x steps steps.length = some y)
    (hs : s.Follows e y) : Linked e x (steps ++ [s]) := by
  intro k s' hs'
  rcases getElem?_concat_cases hs' with hs' | ⟨rfl, rfl⟩
  · rw [stateFrom_append (Nat.le_of_lt (List.getElem?_eq_some_iff.mp hs').1)]
    exact h k s' hs'
  · rw [stateFrom_append (Nat.le_refl _)]
    exact ⟨y, hy, hs⟩

/-- Linked steps replay, up to any of them. -/
theorem Linked.replaySteps (h : Linked e x steps) (hv : v ≤ steps.length) :
    ∃ y, stateFrom x steps v = some y ∧ Trace.replaySteps e i x (steps.take v) = .ok y := by
  induction steps generalizing x i v with
  | nil =>
    cases Nat.le_zero.mp hv
    exact ⟨x, rfl, rfl⟩
  | cons s steps ih =>
    cases v with
    | zero => exact ⟨x, rfl, rfl⟩
    | succ v =>
      obtain ⟨y, hy, hs⟩ := h 0 s rfl
      cases hy
      rw [stateFrom_cons, List.take_succ_cons,
        replaySteps_cons hs.pre rfl hs.rewrite hs.ne_error hs.post]
      refine ih (fun k s' hs' => ?_) (Nat.le_of_succ_le_succ hv)
      rw [← stateFrom_cons]
      exact h (k + 1) s' hs'

/-- What holds of a trace however it is edited. -/
structure History (e : Engine) (t : Trace) : Prop where
  theory : t.theory = e.theory.fingerprint
  initial : e.book.decode t.initial = .ok t.initialTerm
  version : t.version ≤ t.steps.length
  counter : ∀ (k : Nat) (s : TraceStep), t.steps[k]? = some s → s.step = .ofNat k
  linked : Linked e t.initial t.steps

theorem History.of_start (h : start e x = .ok t) : History e t := by
  obtain ⟨term, hterm, rfl⟩ := start_eq_ok_iff.mp h
  exact ⟨rfl, mapError_eq_ok_iff.mp hterm, Nat.le_refl 0, fun _ _ h => absurd h nofun,
    fun _ _ h => absurd h nofun⟩

/-- The current tree is that of the current version. -/
theorem state?_version (hversion : t.version ≤ t.steps.length) :
    t.state? t.version = some t.current := by
  obtain ⟨theory, initial, initialTerm, steps, version⟩ := t
  cases version with
  | zero => rfl
  | succ n =>
    show steps[n]?.map _ = some ((steps[n]?.map _).getD initial)
    rw [List.getElem?_eq_getElem hversion]
    rfl

/-- The current term is what the current tree decodes to. -/
theorem History.decode_current (h : History e t) : e.book.decode t.current = .ok t.currentTerm := by
  obtain ⟨theory, initial, initialTerm, steps, version⟩ := t
  cases version with
  | zero => exact h.initial
  | succ n =>
    have hlt : n < steps.length := h.version
    have hs : steps[n]? = some steps[n] := List.getElem?_eq_getElem hlt
    obtain ⟨y, -, hfollows⟩ := h.linked n _ hs
    show e.book.decode ((steps[n]?.map _).getD initial) = .ok ((steps[n]?.map _).getD initialTerm)
    rw [hs]
    exact hfollows.decode

/-- A step at the current tree may be recorded. -/
theorem History.record (h : History e t) (hstep : s.step = .ofNat t.version)
    (hs : s.Follows e t.current) : History e (t.record s) := by
  have hlength : (t.steps.take t.version).length = t.version := List.length_take_of_le h.version
  refine ⟨h.theory, h.initial, Nat.le_refl _, fun k s' hs' => ?_, (h.linked.take _).concat ?_ hs⟩
  · rcases getElem?_concat_cases hs' with hs' | ⟨rfl, rfl⟩
    · rw [List.getElem?_take] at hs'
      split at hs'
      · exact h.counter k s' hs'
      · exact absurd hs' nofun
    · rw [hlength]
      exact hstep
  · rw [hlength, stateFrom_take (Nat.le_refl _)]
    exact state?_version h.version

theorem History.rollBack (h : History e t) (hv : v ≤ t.steps.length) :
    History e { t with version := v } :=
  ⟨h.theory, h.initial, hv, h.counter, h.linked⟩

/-- **Every edit keeps a history**, also where it fails. -/
theorem History.edit (h : History e t) (edit : Edit) : History e (edit.after e t) := by
  cases edit with
  | apply tag path =>
    rw [Edit.after, Editor.after]
    rcases Editor.on_apply_cases e t tag path with
      ⟨s, hs, -, -, hstep, hfollows⟩ | ⟨err, herr⟩
    · rw [hs]
      exact h.record hstep hfollows
    · rw [herr]
      exact h
  | rollBack v =>
    rw [Edit.after, Editor.after, Editor.on_rollBack]
    split
    · exact h
    · rename_i hv
      exact h.rollBack (Nat.not_lt.mp hv)

/-- Whatever the edits are, they keep a history. -/
theorem History.edited (h : History e t) (edits : List Edit) : History e (t.edited e edits) := by
  induction edits generalizing t with
  | nil => exact h
  | cons edit edits ih => exact ih (h.edit edit)

/-- A history replays up to every version, to the tree that is current after a return to it. -/
theorem History.replayTo (h : History e t) (hv : v ≤ t.steps.length) :
    t.state? v = some { t with version := v }.current ∧
      t.replayTo e v = .ok { t with version := v }.current := by
  obtain ⟨y, hy, hreplay⟩ := h.linked.replaySteps (i := 0) hv
  have hcurrent := state?_version (t := { t with version := v }) hv
  have heq : y = { t with version := v }.current := Option.some.inj (hy.symm.trans hcurrent)
  rw [replayTo_eq h.theory hv, hreplay, heq]
  exact ⟨hcurrent, rfl⟩

/-- **Edited traces replay**, whatever the edits are and whether they succeed. -/
theorem edited_history {t₀ : Trace} {edits : List Edit} (hstart : start e x = .ok t₀)
    (ht : t₀.edited e edits = t) :
    t.version ≤ t.steps.length ∧
    (∀ (k : Nat) (s : TraceStep), t.steps[k]? = some s → s.step = .ofNat k ∧
      ∃ y, t.state? k = some y ∧ s.pre = y.fingerprint ∧
        e.rewrite y s.tag s.path (.ofNat k) = .ok s.result ∧ s.post = s.result.fingerprint ∧
        e.book.decode s.result = .ok s.term) ∧
    (∀ v ≤ t.steps.length, ∃ y term t', t.state? v = some y ∧ e.book.decode y = .ok term ∧
      t.replayTo e v = .ok y ∧ (Editor.rollBack v).on t = (.ok (), t') ∧
      t' = { t with version := v } ∧ t'.current = y ∧ t'.currentTerm = term) ∧
    (∀ tag path s t', (Editor.apply e tag path).on t = (.ok s, t') →
      t' = { t with steps := t.steps.take t.version ++ [s], version := t.version + 1 } ∧
      s.tag = tag ∧ s.path = path) ∧
    (∀ tag path err t', (Editor.apply e tag path).on t = (.error err, t') → t' = t) ∧
    ∀ v err t', (Editor.rollBack v).on t = (.error err, t') → t' = t := by
  have h : History e t := ht ▸ (History.of_start hstart).edited edits
  refine ⟨h.version, fun k s hs => ?_, fun v hv => ?_, fun tag path s t' happly => ?_,
    fun tag path err t' happly => ?_, fun v err t' hroll => ?_⟩
  · obtain ⟨y, hy, hfollows⟩ := h.linked k s hs
    have hstep := h.counter k s hs
    exact ⟨hstep, y, hy, hfollows.pre, hstep ▸ hfollows.rewrite, hfollows.post, hfollows.decode⟩
  · obtain ⟨hstate, hreplay⟩ := h.replayTo hv
    refine ⟨_, _, _, hstate, (h.rollBack hv).decode_current, hreplay, ?_, rfl, rfl, rfl⟩
    rw [Editor.on_rollBack, if_neg (Nat.not_lt.mpr hv)]
  · rcases Editor.on_apply_cases e t tag path with
      ⟨s', hs', htag, hpath, -, -⟩ | ⟨err, herr⟩
    · cases hs'.symm.trans happly
      have hlength : (t.steps.take t.version ++ [s]).length = t.version + 1 := by
        rw [List.length_append, List.length_take_of_le h.version, List.length_singleton]
      exact ⟨congrArg (Trace.mk _ _ _ _) hlength, htag, hpath⟩
    · exact absurd (herr.symm.trans happly) nofun
  · rcases Editor.on_apply_cases e t tag path with
      ⟨s', hs', -⟩ | ⟨err, herr⟩
    · exact absurd (hs'.symm.trans happly) nofun
    · cases herr.symm.trans happly
      rfl
  · rw [Editor.on_rollBack] at hroll
    split at hroll
    · cases hroll
      rfl
    · exact absurd hroll nofun

/-- A rewrite to a tree that decodes is recorded. -/
theorem after_apply (hrewrite : e.rewrite t.current tag p (.ofNat t.version) = .ok y)
    (hy : y ≠ .error) {rule : Rule} (hrule : e.rule? tag = some rule) {term : Expr}
    (hterm : e.book.decode y = .ok term) :
    ∃ s, (Edit.apply tag p).after e t = t.record s ∧ s.result = y := by
  obtain ⟨s, hs, happlication, -, -⟩ :=
    exists_stepBetween (x := t.current) (p := p) (n := .ofNat t.version) hrule hterm
  refine ⟨s, ?_, congrArg Application.result happlication⟩
  rw [Edit.after, Editor.after, Editor.on_apply, rewriteTree_eq_ok hrewrite]
  simp only [Tree.isError_iff, if_neg hy, hs]

/-- A rule that does not apply leaves the trace as it is. -/
theorem after_apply_of_error (h : e.rewrite t.current tag p (.ofNat t.version) = .ok .error) :
    (Edit.apply tag p).after e t = t := by
  rw [Edit.after, Editor.after, Editor.on_apply, rewriteTree_eq_ok h]
  rfl

theorem after_rollBack (hv : v ≤ t.steps.length) :
    (Edit.rollBack v).after e t = { t with version := v } := by
  rw [Edit.after, Editor.after, Editor.on_rollBack, if_neg (Nat.not_lt.mpr hv)]

theorem after_rollBack_of_lt (hv : t.steps.length < v) : (Edit.rollBack v).after e t = t := by
  rw [Edit.after, Editor.after, Editor.on_rollBack, if_pos hv]

/-- Two steps from a pair, of which the second is undone; then the rule does not apply, and there is
no fifth version. The step that is undone can still be replayed. -/
theorem edited_history_pair : ∃ (e : Engine) (t₀ t : Trace), e.Compiled ∧
    start e Pairs.twins = .ok t₀ ∧
    t₀.edited e [.apply ⟨0, .forward⟩ [], .apply ⟨0, .reverse⟩ [], .rollBack 1,
      .apply ⟨0, .forward⟩ [], .rollBack 5] = t ∧
    t.version = 1 ∧ t.steps.length = 2 ∧ t.current = Pairs.varTree 3 ∧
    t.replayTo e 2 = .ok Pairs.introduced := by
  obtain ⟨e, he, hdecode, hdecode', hdecode'', hrule, hrule', hforth, hback, hfails⟩ :=
    Pairs.exists_engine (P := fun e =>
      (e.book.decode Pairs.twins).toOption.any (fun _ => true) = true ∧
      (e.book.decode (Pairs.varTree 3)).toOption.any (fun _ => true) = true ∧
      (e.book.decode Pairs.introduced).toOption.any (fun _ => true) = true ∧
      (e.rule? ⟨0, .forward⟩).isSome = true ∧ (e.rule? ⟨0, .reverse⟩).isSome = true ∧
      Engine.applyAt e.theory.rules e.book e.bounds Pairs.twins ⟨0, .forward⟩ [] (.ofNat 0) =
        Pairs.varTree 3 ∧
      Engine.applyAt e.theory.rules e.book e.bounds (Pairs.varTree 3) ⟨0, .reverse⟩ [] (.ofNat 1) =
        Pairs.introduced ∧
      Engine.applyAt e.theory.rules e.book e.bounds (Pairs.varTree 3) ⟨0, .forward⟩ [] (.ofNat 1) =
        .error) (by decide +kernel)
  obtain ⟨term, hterm, -⟩ := exists_ok_of_any hdecode
  obtain ⟨term', hterm', -⟩ := exists_ok_of_any hdecode'
  obtain ⟨term'', hterm'', -⟩ := exists_ok_of_any hdecode''
  obtain ⟨rule, hrule⟩ := Option.isSome_iff_exists.mp hrule
  obtain ⟨rule', hrule'⟩ := Option.isSome_iff_exists.mp hrule'
  have hstart : start e Pairs.twins = .ok ⟨_, Pairs.twins, term, [], 0⟩ :=
    start_eq_ok_iff.mpr ⟨term, congrArg (Except.mapError _) hterm, rfl⟩
  have hforth := (he.rewrite_eq _ _ _ _).trans (congrArg _ hforth)
  have hback := (he.rewrite_eq _ _ _ _).trans (congrArg _ hback)
  have hfails := (he.rewrite_eq _ _ _ _).trans (congrArg _ hfails)
  let t₀ : Trace := ⟨e.theory.fingerprint, Pairs.twins, term, [], 0⟩
  obtain ⟨s₁, h₁, hs₁⟩ := after_apply (t := t₀) hforth nofun hrule hterm'
  have hcurrent : (t₀.record s₁).current = Pairs.varTree 3 := hs₁
  obtain ⟨s₂, h₂, hs₂⟩ := after_apply (t := t₀.record s₁) (y := Pairs.introduced)
    (hcurrent ▸ hback) nofun hrule' hterm''
  have h₃ := after_rollBack (e := e) (t := (t₀.record s₁).record s₂) (v := 1) (show 1 ≤ 2 by decide)
  let t : Trace := { (t₀.record s₁).record s₂ with version := 1 }
  have hundone : t.current = Pairs.varTree 3 := hs₁
  have h₄ : (Edit.apply ⟨0, .forward⟩ []).after e t = t :=
    after_apply_of_error (hundone ▸ hfails)
  have h₅ : (Edit.rollBack 5).after e t = t := after_rollBack_of_lt (show 2 < 5 by decide)
  have ht : t₀.edited e [.apply ⟨0, .forward⟩ [], .apply ⟨0, .reverse⟩ [], .rollBack 1,
      .apply ⟨0, .forward⟩ [], .rollBack 5] = t := by
    rw [edited, h₁, edited, h₂, edited, h₃, edited, h₄, edited, h₅, edited]
  obtain ⟨-, -, hversions, -⟩ := edited_history hstart ht
  obtain ⟨y, _, _, hy, -, hreplay, -⟩ := hversions 2 (Nat.le_refl 2)
  have hresult : t.state? 2 = some s₂.result := rfl
  rw [hs₂] at hresult
  cases hresult.symm.trans hy
  exact ⟨e, t₀, t, he, hstart, ht, rfl, rfl, hundone, hreplay⟩

end Trace

end SortedRewriting
