import SortedRewriting.Proofs.Trace.Derivation
import SortedRewriting.Proofs.Tree.Fingerprint

/-!
# Replay accepts the genuine steps

The frames of a witness may tell of anything: a trace is read off them without a rewrite, and only
its fingerprints tie it to the trees in the frames. Step `k` is genuine (`Engine.Genuine`) if
rewriting the tree of frame `k`, as its inputs and its step counter say, gives the tree of the next
frame, and this is no error.

* `Trace.ofWitness_records`: a trace records one step for each pair of consecutive frames.
* `Trace.replaySteps_of_genuine`, `Trace.replaySteps_of_not_genuine`: genuine steps replay, and the
  first that is not is refused.
* **`Engine.Compiled.replayTo_iff_genuine`**: without a collision of the hash function, a trace
  replays up to a version exactly when the steps before it are genuine, and the first that is not
  is named in the error.
-/

namespace SortedRewriting

/-! ## What the frames of a witness tell -/

namespace WitnessFrame

/-- The tree in a frame. -/
def Holds (f : WitnessFrame) (x : Tree) : Prop := f.state[RunVariable.tree]? = some (.tree x)

/-- A frame has an application to its tree, but for the result. -/
structure Applies (f : WitnessFrame) (x : Tree) (a : Application) : Prop where
  tree : f.Holds x
  step : f.state[RunVariable.step]? = some (.int a.step)
  rule : f.inputs[RunVariable.rule]? = some (.rule a.tag)
  path : f.inputs[RunVariable.path]? = some (.path a.path)

variable {f : WitnessFrame} {x y : Tree}

theorem Holds.unique (hx : f.Holds x) (hy : f.Holds y) : x = y := by
  unfold Holds at hx hy
  exact Value.tree.inj (Option.some.inj (hx.symm.trans hy))

end WitnessFrame

/-- The tree in frame `k`. -/
def Shows (frames : List WitnessFrame) (k : Nat) (x : Tree) : Prop :=
  ∃ f, frames[k]? = some f ∧ f.Holds x

/-- Frame `k` applies a rule to a tree, with the tree of the next frame as the result. -/
def Tells (frames : List WitnessFrame) (k : Nat) (x : Tree) (a : Application) : Prop :=
  (∃ f, frames[k]? = some f ∧ f.Applies x a) ∧ Shows frames (k + 1) a.result

theorem Shows.unique {frames : List WitnessFrame} {k : Nat} {x y : Tree} (hx : Shows frames k x)
    (hy : Shows frames k y) : x = y := by
  obtain ⟨f, hf, hx⟩ := hx
  obtain ⟨g, hg, hy⟩ := hy
  cases hf.symm.trans hg
  exact hx.unique hy

theorem Tells.unique {frames : List WitnessFrame} {k : Nat} {x y : Tree} {a b : Application}
    (ha : Tells frames k x a) (hb : Tells frames k y b) : x = y ∧ a = b := by
  obtain ⟨⟨f, hf, ha⟩, hx⟩ := ha
  obtain ⟨⟨g, hg, hb⟩, hy⟩ := hb
  cases hf.symm.trans hg
  have hrule := Value.rule.inj (Option.some.inj (ha.rule.symm.trans hb.rule))
  have hpath := Value.path.inj (Option.some.inj (ha.path.symm.trans hb.path))
  have hstep := Value.int.inj (Option.some.inj (ha.step.symm.trans hb.step))
  have hresult := hx.unique hy
  obtain ⟨tag, p, n, z⟩ := a
  obtain ⟨tag', p', n', z'⟩ := b
  cases hrule
  cases hpath
  cases hstep
  cases hresult
  exact ⟨ha.tree.unique hb.tree, rfl⟩

namespace Engine

/-- Step `k` rewrites the tree of its frame to that of the next, which is no error. -/
def Genuine (e : Engine) (frames : List WitnessFrame) (k : Nat) : Prop :=
  ∃ x a, Tells frames k x a ∧ e.rewrite x a.tag a.path a.step = .ok a.result ∧ a.result ≠ .error

/-- The messages that replaying a witness hashes: those of the trees in its frames, and of what
these are rewritten to. -/
def Hashes (e : Engine) (frames : List WitnessFrame) (message : List UInt8) : Prop :=
  ∃ y : Tree, message = Digest.message .tree y.payload ∧
    ((∃ k, Shows frames k y) ∨
      ∃ k x a, Tells frames k x a ∧ e.rewrite x a.tag a.path a.step = .ok y)

end Engine

namespace Trace

variable {e : Engine} {t t' : Trace} {f before after : WitnessFrame} {i k v : Nat} {x y : Tree}
  {tag : RuleTag} {p : Path} {n : Int64} {s : TraceStep}
  {frames rest : List WitnessFrame} {steps : List TraceStep}

/-! ## Reading -/

theorem frameTree_eq_ok_iff : frameTree f i = .ok x ↔ f.Holds x := by
  unfold frameTree WitnessFrame.Holds
  split
  · rename_i y hy
    rw [hy, Except.ok.injEq, Option.some.injEq, Value.tree.injEq]
  · rename_i hne
    exact ⟨nofun, fun h => absurd h (hne x)⟩

theorem frameRule_eq_ok (h : frameRule f i = .ok tag) :
    f.inputs[RunVariable.rule]? = some (.rule tag) := by
  unfold frameRule at h
  split at h
  · cases h
    assumption
  · exact absurd h nofun

theorem framePath_eq_ok (h : framePath f i = .ok p) :
    f.inputs[RunVariable.path]? = some (.path p) := by
  unfold framePath at h
  split at h
  · cases h
    assumption
  · exact absurd h nofun

theorem frameStep_eq_ok (h : frameStep f i = .ok n) :
    f.state[RunVariable.step]? = some (.int n) := by
  unfold frameStep at h
  split at h
  · cases h
    assumption
  · exact absurd h nofun

/-- A tree that decodes is no error. -/
theorem ne_error_of_decodeTree {term : Expr} (h : decodeTree e x = .ok term) : x ≠ .error := by
  rintro rfl
  exact absurd h nofun

/-- A step that is made records its application, and the fingerprints of its trees. -/
theorem stepBetween_eq_ok (h : stepBetween e tag p n x y = .ok s) :
    s.application = ⟨tag, p, n, y⟩ ∧ s.pre = x.fingerprint ∧ s.post = y.fingerprint ∧
      decodeTree e y = .ok s.term := by
  unfold stepBetween at h
  split at h
  · exact absurd h nofun
  · obtain ⟨term, hterm, h⟩ := bind_eq_ok_iff.mp h
    cases h
    exact ⟨rfl, rfl, rfl, hterm⟩

/-- Steps that are recorded for frames, one for each pair of consecutive ones. -/
inductive Records : List WitnessFrame → List TraceStep → Prop
  | last (f : WitnessFrame) : Records [f] []
  | cons {before after : WitnessFrame} {rest : List WitnessFrame} {x : Tree} {s : TraceStep}
      {steps : List TraceStep} (applies : before.Applies x s.application)
      (result : after.Holds s.result) (pre : s.pre = x.fingerprint)
      (post : s.post = s.result.fingerprint) (ne_error : s.result ≠ .error)
      (tail : Records (after :: rest) steps) : Records (before :: after :: rest) (s :: steps)

theorem Records.length_eq (h : Records frames steps) : frames.length = steps.length + 1 := by
  induction h with
  | last f => rfl
  | cons _ _ _ _ _ _ ih => rw [List.length_cons, ih, List.length_cons]

/-- Every pair of consecutive frames tells of an application. -/
theorem Records.exists_tells (h : Records frames steps) (hk : k < steps.length) :
    ∃ x a, Tells frames k x a := by
  induction h generalizing k with
  | last f => exact absurd hk (Nat.not_lt_zero k)
  | cons applies result _ _ _ _ ih =>
    cases k with
    | zero => exact ⟨_, _, ⟨_, rfl, applies⟩, _, rfl, result⟩
    | succ k => exact ih (Nat.lt_of_succ_lt_succ hk)

/-- A pass over the frames records their steps behind those of the trace. -/
theorem followFrames_records (hversion : t.version = t.steps.length)
    (h : followFrames e i t (f :: rest) = .ok t') :
    ∃ steps, Records (f :: rest) steps ∧
      t' = { t with steps := t.steps ++ steps, version := (t.steps ++ steps).length } := by
  induction rest generalizing f i t with
  | nil =>
    cases h
    refine ⟨[], .last f, ?_⟩
    rw [List.append_nil, ← hversion]
  | cons after rest ih =>
    rw [followFrames] at h
    obtain ⟨tag, hrule, h⟩ := bind_eq_ok_iff.mp h
    obtain ⟨p, hpath, h⟩ := bind_eq_ok_iff.mp h
    obtain ⟨n, hstep, h⟩ := bind_eq_ok_iff.mp h
    obtain ⟨x, hx, h⟩ := bind_eq_ok_iff.mp h
    obtain ⟨y, hy, h⟩ := bind_eq_ok_iff.mp h
    obtain ⟨s, hs, h⟩ := bind_eq_ok_iff.mp h
    obtain ⟨happlication, hpre, hpost, hterm⟩ := stepBetween_eq_ok hs
    have hrecord := record_eq hversion s
    obtain ⟨steps, hsteps, ht'⟩ := ih (by rw [hrecord]) h
    have hresult : s.result = y := congrArg Application.result happlication
    refine ⟨s :: steps, .cons (x := x) ?_ ?_ hpre ?_ ?_ hsteps, ?_⟩
    · rw [happlication]
      exact ⟨frameTree_eq_ok_iff.mp hx, frameStep_eq_ok hstep, frameRule_eq_ok hrule,
        framePath_eq_ok hpath⟩
    · rw [hresult]
      exact frameTree_eq_ok_iff.mp hy
    · rw [hpost, hresult]
    · rw [hresult]
      exact ne_error_of_decodeTree hterm
    · rw [ht', hrecord, List.append_assoc, List.singleton_append]

/-- **A trace that is read records the steps of the frames**, from the tree of the first. -/
theorem ofWitness_records {w : Witness} (h : ofWitness e w = .ok t) :
    Records w.frames t.steps ∧ Shows w.frames 0 t.initial ∧ t.theory = e.theory.fingerprint ∧
      decodeTree e t.initial = .ok t.initialTerm := by
  unfold ofWitness at h
  split at h
  · exact absurd h nofun
  · rename_i first rest hframes
    obtain ⟨x, hx, h⟩ := bind_eq_ok_iff.mp h
    obtain ⟨t₀, hstart, h⟩ := bind_eq_ok_iff.mp h
    obtain ⟨term, hterm, rfl⟩ := start_eq_ok_iff.mp hstart
    obtain ⟨steps, hsteps, rfl⟩ := followFrames_records (t := ⟨_, x, term, [], 0⟩) rfl h
    rw [hframes]
    exact ⟨hsteps, ⟨first, rfl, frameTree_eq_ok_iff.mp hx⟩, rfl, hterm⟩

/-! ## Replaying -/

/-- **Genuine steps replay**, and lead to the tree of the frame after them. -/
theorem replaySteps_of_genuine (h : Records frames steps) (hx : Shows frames 0 x)
    (hv : v ≤ steps.length) (hgenuine : ∀ k < v, e.Genuine frames k) :
    ∃ y, Shows frames v y ∧ replaySteps e i x (steps.take v) = .ok y := by
  induction h generalizing i x v with
  | last f =>
    cases Nat.le_zero.mp hv
    exact ⟨x, hx, rfl⟩
  | @cons before after rest x' s steps applies result pre post ne_error _ ih =>
    cases v with
    | zero => exact ⟨x, hx, rfl⟩
    | succ v =>
      obtain ⟨hfirst, hrest⟩ := Nat.forall_lt_succ_left.mp hgenuine
      obtain ⟨x'', a, htells, hrewrite, -⟩ := hfirst
      obtain ⟨rfl, rfl⟩ := htells.unique ⟨⟨before, rfl, applies⟩, after, rfl, result⟩
      cases hx.unique ⟨before, rfl, applies.tree⟩
      rw [List.take_succ_cons, replaySteps_cons pre rfl hrewrite ne_error post]
      exact ih ⟨after, rfl, result⟩ (Nat.le_of_succ_le_succ hv) hrest

/-- A step that gives another tree than it records is refused. -/
theorem replaySteps_cons_of_ne (hpre : s.pre = x.fingerprint)
    (hrewrite : e.rewrite x s.tag s.path s.step = .ok y) (hpost : y.fingerprint ≠ s.post) :
    replaySteps e i x (s :: steps) =
      .error (if y = .error then .noLongerMatches i else .fingerprintMismatch i) := by
  rw [replaySteps, if_neg (not_not_intro hpre.symm), rewriteTree_eq_ok hrewrite]
  show (if y.isError = true then _ else _) = _
  simp only [Tree.isError_iff, if_pos hpost]
  split <;> rfl

/-- **The first step that is not genuine is refused**, where no rewrite gives another tree of the
recorded fingerprint. -/
theorem replaySteps_of_not_genuine (he : e.Compiled) (h : Records frames steps)
    (hx : Shows frames 0 x)
    (hinj : ∀ k x a y, Tells frames k x a → e.rewrite x a.tag a.path a.step = .ok y →
      y.fingerprint = a.result.fingerprint → y = a.result)
    (hv : v ≤ steps.length) (hk : k < v) (hgenuine : ∀ j < k, e.Genuine frames j)
    (hforged : ¬ e.Genuine frames k) :
    ∃ x' a y, Tells frames k x' a ∧ e.rewrite x' a.tag a.path a.step = .ok y ∧
      replaySteps e i x (steps.take v) =
        .error (if y = .error then .noLongerMatches (i + k) else .fingerprintMismatch (i + k)) := by
  induction h generalizing i x v k with
  | last f => exact absurd (Nat.lt_of_lt_of_le hk hv) (Nat.not_lt_zero k)
  | @cons before after rest x' s steps applies result pre post ne_error _ ih =>
    have htells : Tells (before :: after :: rest) 0 x' s.application :=
      ⟨⟨before, rfl, applies⟩, after, rfl, result⟩
    cases hx.unique ⟨before, rfl, applies.tree⟩
    cases v with
    | zero => exact absurd hk (Nat.not_lt_zero k)
    | succ v =>
      rw [List.take_succ_cons]
      cases k with
      | zero =>
        have hrewrite := he.rewrite_eq x' s.tag s.path s.step
        refine ⟨x', _, _, htells, hrewrite, replaySteps_cons_of_ne pre hrewrite fun hpost => ?_⟩
        have heq := hinj 0 x' _ _ htells hrewrite (hpost.trans post)
        exact hforged ⟨x', _, htells, hrewrite.trans (congrArg _ heq), ne_error⟩
      | succ k =>
        obtain ⟨hfirst, hrest⟩ := Nat.forall_lt_succ_left.mp hgenuine
        obtain ⟨x'', a, htells', hrewrite, -⟩ := hfirst
        obtain ⟨rfl, rfl⟩ := htells'.unique htells
        obtain ⟨x₁, a, y, htells₁, hrewrite₁, hreplay⟩ := ih (i := i + 1) ⟨after, rfl, result⟩
          (fun k => hinj (k + 1)) (Nat.le_of_succ_le_succ hv) (Nat.lt_of_succ_lt_succ hk) hrest
          hforged
        refine ⟨x₁, a, y, htells₁, hrewrite₁, ?_⟩
        rw [replaySteps_cons pre rfl hrewrite ne_error post, hreplay, Nat.add_right_comm i 1 k,
          Nat.add_assoc i k 1]

/-- Up to a recorded version, only the steps are tried. -/
theorem replayTo_eq (htheory : t.theory = e.theory.fingerprint) (hv : v ≤ t.steps.length) :
    t.replayTo e v = replaySteps e 0 t.initial (t.steps.take v) := by
  rw [replayTo, if_neg (Nat.not_lt.mpr hv), if_neg (not_not_intro htheory.symm)]

theorem replayTo_versionMismatch (hv : t.steps.length < v) :
    t.replayTo e v = .error .versionMismatch := if_pos hv

end Trace

namespace Engine

variable {e : Engine} {w : Witness} {t : Trace}

/-- Rewriting gives no other tree of the fingerprint that a frame holds the tree of. -/
theorem eq_result_of_fingerprint (hcounted : ∀ k x, Shows w.frames k x → x.Counted)
    (hfree : Sha256.CollisionFree (e.Hashes w.frames)) {k : Nat} {x y : Tree} {a : Application}
    (htells : Tells w.frames k x a) (hrewrite : e.rewrite x a.tag a.path a.step = .ok y)
    (h : y.fingerprint = a.result.fingerprint) : y = a.result :=
  .symm <| Tree.eq_of_fingerprint_eq hfree (hcounted _ _ htells.2) ⟨_, rfl, .inl ⟨_, htells.2⟩⟩
    ⟨y, rfl, .inr ⟨k, x, a, htells, hrewrite⟩⟩ h.symm

section Replay

variable {v k : Nat} (he : e.Compiled) (hread : Trace.ofWitness e w = .ok t)
  (hcounted : ∀ k x, Shows w.frames k x → x.Counted)
  (hfree : Sha256.CollisionFree (e.Hashes w.frames))

include hread

theorem length_steps : t.steps.length = w.length := by
  rw [Witness.length, (Trace.ofWitness_records hread).1.length_eq, Nat.add_sub_cancel]

/-- Every frame holds a tree. -/
theorem exists_shows (hv : v ≤ w.length) : ∃ x, Shows w.frames v x := by
  obtain ⟨hrecords, hfirst, -⟩ := Trace.ofWitness_records hread
  cases v with
  | zero => exact ⟨_, hfirst⟩
  | succ v =>
    obtain ⟨x, a, -, hresult⟩ := hrecords.exists_tells (length_steps hread ▸ hv)
    exact ⟨_, hresult⟩

/-- A trace replays if its steps are genuine. -/
theorem replayTo_of_genuine (hv : v ≤ w.length) (h : ∀ k < v, e.Genuine w.frames k) :
    ∃ y, Shows w.frames v y ∧ t.replayTo e v = .ok y := by
  obtain ⟨hrecords, hfirst, htheory, -⟩ := Trace.ofWitness_records hread
  rw [← length_steps hread] at hv
  rw [Trace.replayTo_eq htheory hv]
  exact Trace.replaySteps_of_genuine hrecords hfirst hv h

include he hcounted hfree

/-- A trace does not replay past the first step that is not genuine. -/
theorem replayTo_of_not_genuine (hv : v ≤ w.length) (hk : k < v)
    (hgenuine : ∀ j < k, e.Genuine w.frames j) (hforged : ¬ e.Genuine w.frames k) :
    ∃ x a y, Tells w.frames k x a ∧ e.rewrite x a.tag a.path a.step = .ok y ∧
      t.replayTo e v =
        .error (if y = .error then .noLongerMatches k else .fingerprintMismatch k) := by
  obtain ⟨hrecords, hfirst, htheory, -⟩ := Trace.ofWitness_records hread
  rw [← length_steps hread] at hv
  obtain ⟨x, a, y, htells, hrewrite, hreplay⟩ := Trace.replaySteps_of_not_genuine (i := 0) he
    hrecords hfirst (fun _ _ _ _ => eq_result_of_fingerprint hcounted hfree) hv hk hgenuine hforged
  rw [Nat.zero_add] at hreplay
  exact ⟨x, a, y, htells, hrewrite, (Trace.replayTo_eq htheory hv).trans hreplay⟩

/-- A trace that replays has genuine steps: there is no first one that is not. -/
theorem genuine_of_replayTo {y : Tree} (hv : v ≤ w.length) (h : t.replayTo e v = .ok y) :
    ∀ k < v, e.Genuine w.frames k := by
  intro k
  induction k using Nat.strong_induction_on with
  | _ k ih =>
    intro hk
    by_contra hnot
    obtain ⟨_, _, _, -, -, herror⟩ := replayTo_of_not_genuine he hread hcounted hfree hv hk
      (fun j hj => ih j hj (Nat.lt_trans hj hk)) hnot
    exact absurd (h.symm.trans herror) nofun

end Replay

/-- **Replay accepts the genuine steps, and no others**, whatever the frames of the witness tell. -/
theorem Compiled.replayTo_iff_genuine (he : e.Compiled) (hread : Trace.ofWitness e w = .ok t)
    (hcounted : ∀ k x, Shows w.frames k x → x.Counted)
    (hfree : Sha256.CollisionFree (e.Hashes w.frames)) :
    (∀ v ≤ w.length, ∃ x, Shows w.frames v x) ∧
    (∀ k < w.length, ∃ x a, Tells w.frames k x a) ∧
    (∀ v ≤ w.length, ∀ y, t.replayTo e v = .ok y ↔
      (∀ k < v, e.Genuine w.frames k) ∧ Shows w.frames v y) ∧
    (∀ v ≤ w.length, ∀ k < v, (∀ j < k, e.Genuine w.frames j) → ¬ e.Genuine w.frames k →
      ∃ x a y, Tells w.frames k x a ∧ e.rewrite x a.tag a.path a.step = .ok y ∧
        t.replayTo e v =
          .error (if y = .error then .noLongerMatches k else .fingerprintMismatch k)) ∧
    (∀ v, w.length < v → t.replayTo e v = .error .versionMismatch) ∧
    t.replay e = t.replayTo e w.length := by
  have hlength := length_steps hread
  refine ⟨fun v => exists_shows hread, fun k hk => ?_, fun v hv y => ⟨fun h => ?_, ?_⟩,
    fun v hv k => replayTo_of_not_genuine he hread hcounted hfree hv, fun v hv => ?_, ?_⟩
  · exact (Trace.ofWitness_records hread).1.exists_tells (hlength ▸ hk)
  · have hall := genuine_of_replayTo he hread hcounted hfree hv h
    obtain ⟨z, hz, hok⟩ := replayTo_of_genuine hread hv hall
    cases h.symm.trans hok
    exact ⟨hall, hz⟩
  · rintro ⟨hall, hy⟩
    obtain ⟨z, hz, hok⟩ := replayTo_of_genuine hread hv hall
    rw [hok, hz.unique hy]
  · exact Trace.replayTo_versionMismatch (hlength ▸ hv)
  · rw [Trace.replay, hlength]

end Engine

/-! ## A forged step -/

namespace Pairs

/-- The tree of a pair of equal components. -/
def twins : Tree := pairTree (varTree 3) (varTree 3)

/-- The tree of a pair with an introduced variable. -/
def introduced : Tree := pairTree (varTree 3) (varTree (-3))

/-- Frames that go from a pair to its component, as the rule says, and then stay there. -/
def forged : Witness := ⟨framesFrom 0 twins
  [⟨⟨0, .forward⟩, [], .ofNat 0, varTree 3⟩, ⟨⟨0, .reverse⟩, [], .ofNat 1, varTree 3⟩]⟩

theorem counted_varTree (code : Int64) : (varTree code).Counted :=
  Tree.counted_build (List.forall_mem_singleton.mpr (Tree.counted_build nofun (by decide)))
    (by decide)

theorem counted_twins : twins.Counted := by
  unfold twins pairTree
  refine Tree.counted_build (fun c hc => ?_) (by decide)
  rcases List.mem_cons.mp hc with rfl | hc
  · exact Tree.counted_build nofun (by decide)
  · rw [List.mem_pair, or_self] at hc
    exact hc ▸ counted_varTree 3

theorem shows_forged_first : Shows forged.frames 0 twins := ⟨_, rfl, rfl⟩

theorem shows_forged_last : Shows forged.frames 2 (varTree 3) := ⟨_, rfl, rfl⟩

theorem tells_forged_first :
    Tells forged.frames 0 twins ⟨⟨0, .forward⟩, [], .ofNat 0, varTree 3⟩ :=
  ⟨⟨_, rfl, rfl, rfl, rfl, rfl⟩, _, rfl, rfl⟩

theorem tells_forged_second :
    Tells forged.frames 1 (varTree 3) ⟨⟨0, .reverse⟩, [], .ofNat 1, varTree 3⟩ :=
  ⟨⟨_, rfl, rfl, rfl, rfl, rfl⟩, _, rfl, rfl⟩

theorem shows_forged {k : Nat} {x : Tree} (h : Shows forged.frames k x) :
    x = twins ∨ x = varTree 3 := by
  match k with
  | 0 => exact .inl (h.unique shows_forged_first)
  | 1 => exact .inr (h.unique tells_forged_first.2)
  | 2 => exact .inr (h.unique shows_forged_last)
  | k + 3 =>
    obtain ⟨f, hf, -⟩ := h
    exact absurd hf nofun

variable {e : Engine}

/-- What replaying these frames hashes, and that it has no collision. -/
theorem collisionFree_forged
    (hforth : e.rewrite twins ⟨0, .forward⟩ [] (.ofNat 0) = .ok (varTree 3))
    (hback : e.rewrite (varTree 3) ⟨0, .reverse⟩ [] (.ofNat 1) = .ok introduced) :
    Sha256.CollisionFree (e.Hashes forged.frames) := by
  have hnodup : ([twins, varTree 3, introduced].map Tree.fingerprint).Nodup := by decide +kernel
  refine Tree.collisionFree_of_nodup ?_ hnodup
  rintro m ⟨x, rfl, ⟨k, hx⟩ | ⟨k, x', a, ha, hrewrite⟩⟩
  · exact ⟨x, by rcases shows_forged hx with rfl | rfl <;> simp, rfl⟩
  · refine ⟨x, ?_, rfl⟩
    match k with
    | 0 =>
      obtain ⟨rfl, rfl⟩ := ha.unique tells_forged_first
      cases hrewrite.symm.trans hforth
      simp
    | 1 =>
      obtain ⟨rfl, rfl⟩ := ha.unique tells_forged_second
      cases hrewrite.symm.trans hback
      simp
    | k + 2 =>
      obtain ⟨g, hg, -⟩ := ha.2
      exact absurd hg nofun

end Pairs

namespace Engine

/-- The first step of the forged frames replays. The second is refused: the rule in reverse leads to
another pair. -/
theorem Compiled.replayTo_iff_genuine_pair : ∃ (e : Engine) (t : Trace), e.Compiled ∧
    Trace.ofWitness e Pairs.forged = .ok t ∧
    (∀ k x, Shows Pairs.forged.frames k x → x.Counted) ∧
    Sha256.CollisionFree (e.Hashes Pairs.forged.frames) ∧
    t.replayTo e 1 = .ok (Pairs.varTree 3) ∧ t.replay e = .error (.fingerprintMismatch 1) := by
  obtain ⟨e, he, hread, hforth, hback⟩ := Pairs.exists_engine (P := fun e =>
    (Trace.ofWitness e Pairs.forged).toOption.any (fun _ => true) = true ∧
    applyAt e.theory.rules e.book e.bounds Pairs.twins ⟨0, .forward⟩ [] (.ofNat 0) =
      Pairs.varTree 3 ∧
    applyAt e.theory.rules e.book e.bounds (Pairs.varTree 3) ⟨0, .reverse⟩ [] (.ofNat 1) =
      Pairs.introduced) (by decide +kernel)
  obtain ⟨t, hread, -⟩ := exists_ok_of_any hread
  have hforth := (he.rewrite_eq _ _ _ _).trans (congrArg _ hforth)
  have hback := (he.rewrite_eq _ _ _ _).trans (congrArg _ hback)
  have hcounted : ∀ k x, Shows Pairs.forged.frames k x → x.Counted := fun k x hx => by
    rcases Pairs.shows_forged hx with rfl | rfl
    · exact Pairs.counted_twins
    · exact Pairs.counted_varTree 3
  have hfree := Pairs.collisionFree_forged hforth hback
  obtain ⟨-, -, hreplay, hforged, -, hlast⟩ := he.replayTo_iff_genuine hread hcounted hfree
  have hgenuine : ∀ j < 1, e.Genuine Pairs.forged.frames j := fun j hj => by
    cases Nat.lt_one_iff.mp hj
    exact ⟨_, _, Pairs.tells_forged_first, hforth, nofun⟩
  have hnot : ¬ e.Genuine Pairs.forged.frames 1 := by
    rintro ⟨x, a, ha, hrewrite, -⟩
    obtain ⟨rfl, rfl⟩ := ha.unique Pairs.tells_forged_second
    exact absurd (Except.ok.inj (hrewrite.symm.trans hback)) (by decide)
  obtain ⟨x, a, y, ha, hrewrite, herror⟩ := hforged 2 (Nat.le_refl 2) 1 (by decide) hgenuine hnot
  obtain ⟨rfl, rfl⟩ := ha.unique Pairs.tells_forged_second
  cases hrewrite.symm.trans hback
  exact ⟨e, t, he, hread, hcounted, hfree,
    (hreplay 1 (by decide) _).mpr ⟨hgenuine, Pairs.tells_forged_first.2⟩, hlast.trans herror⟩

end Engine

end SortedRewriting
