import SortedRewriting.Proofs.Engine.Legibility
import SortedRewriting.Proofs.Trace.Derivation

/-!
# Traces of runs can be read

A trace has a term for each of its trees, so there is none where a tree does not decode. No tree of
a run is such (`Engine.RunInRange.exists_decode`): what may go wrong with a witness of a run, or
with one more step, is never the decoding.

* `Trace.ofWitness_decode`: reading a witness fails to decode only a tree that stands in a frame.
* `Trace.apply_decode`: one more step fails to decode only the tree that it leads to.
* **`Engine.Compiled.run_readable`**: so neither does, on the states of a run from a registered term.
-/

namespace SortedRewriting

namespace Trace

variable {e : Engine} {t : Trace} {tag : RuleTag} {p : Path} {n : Int64} {x y : Tree}
  {err : DecodeError} {f : WitnessFrame} {i : Nat}

/-! ## Where decoding fails -/

theorem decodeTree_eq_decode_iff :
    decodeTree e x = .error (.decode err) ↔ e.book.decode x = .error err := by
  rw [decodeTree, mapError_eq_error_iff]
  exact ⟨fun ⟨err', h, heq⟩ => TraceError.decode.inj heq ▸ h, fun h => ⟨err, h, rfl⟩⟩

/-- A step fails to decode its result only. -/
theorem stepBetween_decode (h : stepBetween e tag p n x y = .error (.decode err)) :
    e.book.decode y = .error err := by
  unfold stepBetween at h
  split at h
  · exact absurd h nofun
  · rcases bind_eq_error_iff.mp h with h | ⟨term, -, h⟩
    · exact decodeTree_eq_decode_iff.mp h
    · exact absurd h nofun

/-- What is missing in a frame is no failure to decode. -/
theorem frame_ne_decode (f : WitnessFrame) (i : Nat) (err : DecodeError) :
    frameTree f i ≠ .error (.decode err) ∧ frameRule f i ≠ .error (.decode err) ∧
      framePath f i ≠ .error (.decode err) ∧ frameStep f i ≠ .error (.decode err) := by
  refine ⟨fun h => ?_, fun h => ?_, fun h => ?_, fun h => ?_⟩
  · unfold frameTree at h
    split at h <;> exact absurd h nofun
  · unfold frameRule at h
    split at h <;> exact absurd h nofun
  · unfold framePath at h
    split at h <;> exact absurd h nofun
  · unfold frameStep at h
    split at h <;> exact absurd h nofun

/-- A tree in the frames does not decode. -/
def UndecodedFrame (e : Engine) (frames : List WitnessFrame) (err : DecodeError) : Prop :=
  ∃ f ∈ frames, ∃ i x, frameTree f i = .ok x ∧ e.book.decode x = .error err

theorem followFrames_decode {frames : List WitnessFrame}
    (h : followFrames e i t frames = .error (.decode err)) : UndecodedFrame e frames err := by
  induction frames generalizing i t with
  | nil => exact absurd h nofun
  | cons before rest ih =>
    cases rest with
    | nil => exact absurd h nofun
    | cons after rest =>
      obtain ⟨htree, hrule, hpath, hstep⟩ := frame_ne_decode before i err
      rw [followFrames] at h
      obtain ⟨tag, -, h⟩ := (bind_eq_error_iff.mp h).resolve_left hrule
      obtain ⟨p, -, h⟩ := (bind_eq_error_iff.mp h).resolve_left hpath
      obtain ⟨n, -, h⟩ := (bind_eq_error_iff.mp h).resolve_left hstep
      obtain ⟨x, -, h⟩ := (bind_eq_error_iff.mp h).resolve_left htree
      obtain ⟨y, hy, h⟩ := (bind_eq_error_iff.mp h).resolve_left (frame_ne_decode after (i + 1) err).1
      rcases bind_eq_error_iff.mp h with h | ⟨s, -, h⟩
      · exact ⟨after, by simp, i + 1, y, hy, stepBetween_decode h⟩
      · obtain ⟨f, hf, hundecoded⟩ := ih h
        exact ⟨f, List.mem_cons_of_mem before hf, hundecoded⟩

/-- **Reading a witness fails to decode a tree of its frames only.** -/
theorem ofWitness_decode {w : Witness} (h : ofWitness e w = .error (.decode err)) :
    UndecodedFrame e w.frames err := by
  unfold ofWitness at h
  split at h
  · exact absurd h nofun
  · rename_i first rest hframes
    obtain ⟨x, hx, h⟩ := (bind_eq_error_iff.mp h).resolve_left (frame_ne_decode first 0 err).1
    rw [hframes]
    rcases bind_eq_error_iff.mp h with h | ⟨t, -, h⟩
    · refine ⟨first, List.mem_cons_self, 0, x, hx, ?_⟩
      rcases bind_eq_error_iff.mp h with h | ⟨term, -, h⟩
      · exact decodeTree_eq_decode_iff.mp h
      · exact absurd h nofun
    · exact followFrames_decode h

/-- **One more step fails to decode its result only**, which is no error. -/
theorem apply_decode (h : t.apply e tag p = .error (.decode err)) :
    ∃ y, e.rewrite t.current tag p (.ofNat t.version) = .ok y ∧ y ≠ .error ∧
      e.book.decode y = .error err := by
  rcases bind_eq_error_iff.mp h with h | ⟨y, hy, h⟩
  · obtain ⟨err', -, heq⟩ := mapError_eq_error_iff.mp h
    cases heq
  · refine ⟨y, mapError_eq_ok_iff.mp hy, ?_⟩
    split at h
    · exact absurd h nofun
    · rename_i hne
      rcases bind_eq_error_iff.mp h with h | ⟨s, -, h⟩
      · exact ⟨fun heq => hne (Tree.isError_iff.mpr heq), stepBetween_decode h⟩
      · exact absurd h nofun

end Trace

/-! ## The states of a run -/

namespace Engine

variable {e : Engine} {es : List Expr} {start t : Expr}

/-- **The states of a run from a registered term decode**, those that are no errors, for any terms
that are registered besides; so no witness whose frames hold such states, and no step after one,
fails to be decoded. -/
theorem Compiled.run_readable (he : e.Compiled) (hbook : e.book = .recorded e.theory es)
    (hes : ∀ t ∈ es, t.WellFormed) (hsize : e.theory.symbols.size < CodeBook.fallbackBase)
    (hT : e.theory.KeepsKinds) (ht : e.theory.elaborateExpr t = .ok start) (hstart : start ∈ es)
    (hdeclares : e.theory.Declares start) :
    (∀ n x, e.RunInRange (e.treeOf start) n x → x ≠ .error → ∃ v, e.book.decode x = .ok v) ∧
    (∀ (tr : Trace) tag p, e.RunInRange (e.treeOf start) tr.version tr.current →
      e.InRange tag tr.version → ∀ err, tr.apply e tag p ≠ .error (.decode err)) ∧
    ∀ w : Witness, (∀ f ∈ w.frames, ∀ i x, Trace.frameTree f i = .ok x →
        x ≠ .error ∧ ∃ n, e.RunInRange (e.treeOf start) n x) →
      ∀ err, Trace.ofWitness e w ≠ .error (.decode err) := by
  obtain ⟨made, helaborated⟩ := he.made
  have hannotated := made.elaborateExpr_annotated helaborated ht
  have hnumbers : e.theory.symbols.size < 2 ^ 63 := Nat.lt_trans hsize (by decide)
  have hdecode : ∀ n x, e.RunInRange (e.treeOf start) n x → x ≠ .error →
      ∃ v, e.book.decode x = .ok v := by
    refine fun n x run hx => run.exists_decode he hnumbers hT (fun hne => ?_) hx
    obtain ⟨v, hv, -⟩ := CodeBook.legible_encode
      (fun u hu => he.denotes_registered hbook hes hsize hstart hdeclares hannotated hu)
      (hes start hstart) hne
    exact ⟨v, hv⟩
  refine ⟨hdecode, fun tr tag p run range err h => ?_, fun w hframes err h => ?_⟩
  · obtain ⟨y, hrewrite, hy, herr⟩ := Trace.apply_decode h
    obtain ⟨v, hv⟩ := hdecode _ y (run.step range hrewrite) hy
    cases hv.symm.trans herr
  · obtain ⟨f, hf, i, x, hx, herr⟩ := Trace.ofWitness_decode h
    obtain ⟨hne, n, run⟩ := hframes f hf i x hx
    obtain ⟨v, hv⟩ := hdecode n x run hne
    cases hv.symm.trans herr

/-- A pair goes to its first component and back to a pair with an introduced variable. That tree
decodes, and so do a further step and the witness of both steps. -/
theorem Compiled.run_readable_pair : ∃ (e : Engine) (x y : Tree), e.Compiled ∧
    e.treeOf (Pairs.pair (Pairs.thingVar "x") (Pairs.thingVar "y")) = x ∧
    y = Pairs.pairTree (Pairs.varTree 3) (Pairs.varTree (-3)) ∧ e.RunInRange x 2 y ∧
    (∃ v, e.book.decode y = .ok v) ∧
    (∀ tr : Trace, tr.version = 2 → tr.current = y →
      ∀ err, tr.apply e ⟨0, .forward⟩ [] ≠ .error (.decode err)) ∧
    ∀ err, Trace.ofWitness e ⟨framesFrom 0 x [⟨⟨0, .forward⟩, [], .ofNat 0, Pairs.varTree 3⟩,
      ⟨⟨0, .reverse⟩, [], .ofNat 1, y⟩]⟩ ≠ .error (.decode err) := by
  let start := Pairs.pair (Pairs.thingVar "x") (Pairs.thingVar "y")
  let y := Pairs.pairTree (Pairs.varTree 3) (Pairs.varTree (-3))
  obtain ⟨e, he, hbook, hheads, hsize, hrules, helaborate, hdeclares, hforth, hback, hne, hrange,
      hrange', hrange''⟩ :=
    exists_registered_pair "y" (P := fun e =>
      (∀ sym ∈ e.theory.symbols.toList, sym.toList.head? ≠ some '_') ∧
      e.theory.symbols.size < CodeBook.fallbackBase ∧
      (∀ r ∈ e.theory.rules, (e.theory.Declares r.left ∧ e.theory.Declares r.right) ∧
        r.left.isSort = r.right.isSort) ∧
      e.theory.elaborateExpr start = .ok start ∧ e.theory.Declares start ∧
      applyAt e.theory.rules e.book e.bounds (e.treeOf start) ⟨0, .forward⟩ [] (.ofNat 0) =
        Pairs.varTree 3 ∧
      applyAt e.theory.rules e.book e.bounds (Pairs.varTree 3) ⟨0, .reverse⟩ [] (.ofNat 1) = y ∧
      e.treeOf start ≠ .error ∧ e.InRange ⟨0, .forward⟩ 0 ∧ e.InRange ⟨0, .reverse⟩ 1 ∧
      e.InRange ⟨0, .forward⟩ 2)
    (by decide +kernel)
  have hT : e.theory.KeepsKinds := by
    refine ⟨fun r hr => (hrules r hr).1, fun r hr => (hrules r hr).2, fun s i => ?_⟩
    refine Theory.notMem_of_notMem_symbols fun hmem => ?_
    exact hheads _ (Std.ExtTreeSet.mem_toList.mpr hmem) (CodeBook.head?_freshName s i)
  have hfirst := RunInRange.start.step hrange ((he.rewrite_eq _ _ _ _).trans (congrArg _ hforth))
  have hrun := hfirst.step hrange' ((he.rewrite_eq _ _ _ _).trans (congrArg _ hback))
  obtain ⟨hdecode, happly, hwitness⟩ := he.run_readable hbook
    (List.forall_mem_singleton.mpr (by decide)) hsize hT helaborate List.mem_cons_self hdeclares
  refine ⟨e, _, y, he, rfl, rfl, hrun, hdecode 2 y hrun nofun, fun tr hversion hcurrent => ?_,
    hwitness _ fun f hf i x hx => ?_⟩
  · refine happly tr _ _ ?_ ?_ <;> rw [hversion]
    · rwa [hcurrent]
    · exact hrange''
  · rcases List.mem_cons.mp hf with rfl | hf
    · rw [Trace.frameTree_runState] at hx
      cases hx
      exact ⟨hne, 0, .start⟩
    · rcases List.mem_cons.mp hf with rfl | hf
      · rw [Trace.frameTree_runState] at hx
        cases hx
        exact ⟨nofun, 1, hfirst⟩
      · cases List.mem_singleton.mp hf
        rw [Trace.frameTree_runState] at hx
        cases hx
        exact ⟨nofun, 2, hrun⟩

end Engine

end SortedRewriting
