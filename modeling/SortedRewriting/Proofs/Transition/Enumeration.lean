import Mathlib.Algebra.BigOperators.Group.Finset.Basic
import Mathlib.Data.List.Shortlex
import SortedRewriting.Proofs.Transition.Checker
import SortedRewriting.Proofs.Tree.Bounds

/-!
# Paths and inputs are listed completely, and without repetition

All paths of one length are the combinations of as many lists of indices, and the inputs of a
transition system are the combinations of the values of its input variables. So both follow from
what holds of `Checker.combinations`: if each list is in strict order, the combinations are in strict
lexicographic order (`Checker.pairwise_combinations`), for the order of numbers and just as well for
being different.

Combinations are defined from the first list on. They can also be built up from the empty one by
lengthening what has been found by each element of the next list (`Checker.foldl_lengthen`), which
stops at the first list that is missing (`Checker.foldlM_lengthen`).

* `Bounds.pairwise_paths`, `Bounds.length_paths`: the order and the number of paths.
* `Checker.exists_inputCombinations`: the combinations of inputs of bounded types.
* **`Bounds.enumerated`**: paths and inputs are exactly those within the bounds, each once.
-/

namespace SortedRewriting

/-! ## Combinations -/

namespace Checker

variable {α β ε : Type} {lists : List (List α)}

theorem length_combinations (lists : List (List α)) :
    (combinations lists).length = (lists.map List.length).prod := by
  induction lists with
  | nil => rfl
  | cons list lists ih =>
    rw [combinations, List.length_flatMap, List.map_cons, List.prod_cons, ← ih]
    simp only [List.length_map, List.map_const', List.sum_replicate_nat]

/-- **Combinations are in lexicographic order**, by any relation that orders each list. -/
theorem pairwise_combinations {r : α → α → Prop} (h : ∀ list ∈ lists, list.Pairwise r) :
    (combinations lists).Pairwise (List.Lex r) := by
  induction lists with
  | nil => exact List.pairwise_singleton _ _
  | cons list lists ih =>
    obtain ⟨hlist, hlists⟩ := List.forall_mem_cons.mp h
    rw [combinations, List.pairwise_flatMap]
    constructor
    · intro x _
      exact List.pairwise_map.mpr ((ih hlists).imp List.Lex.cons)
    · -- different first elements decide, whatever follows
      refine hlist.imp fun {x y} hxy xs hxs ys hys => ?_
      obtain ⟨xs, -, rfl⟩ := List.mem_map.mp hxs
      obtain ⟨ys, -, rfl⟩ := List.mem_map.mp hys
      exact List.Lex.rel hxy

/-- Lists without repetition have combinations without repetition. -/
theorem nodup_combinations (h : ∀ list ∈ lists, list.Nodup) : (combinations lists).Nodup :=
  (pairwise_combinations h).imp List.Lex.to_ne

/-- Lengthens each of the lists found so far by each of the values. -/
def lengthen (found : List (List α)) (values : List α) : List (List α) :=
  found.flatMap fun xs => values.map fun x => xs ++ [x]

/-- Lengthening by one list after another continues what has been found by all combinations. -/
theorem foldl_lengthen_from (found : List (List α)) :
    lists.foldl lengthen found = found.flatMap fun xs => (combinations lists).map (xs ++ ·) := by
  induction lists generalizing found with
  | nil => simp [combinations]
  | cons list lists ih =>
    rw [List.foldl_cons, ih, lengthen, List.flatMap_assoc]
    refine List.flatMap_congr fun xs _ => ?_
    rw [combinations, List.map_flatMap, List.flatMap_map]
    refine List.flatMap_congr fun x _ => ?_
    rw [List.map_map]
    exact List.map_congr_left fun ys _ => List.append_assoc xs [x] ys

/-- **Combinations are found by lengthening**, from the first list to the last. -/
theorem foldl_lengthen (lists : List (List α)) :
    lists.foldl lengthen [[]] = combinations lists := by
  rw [foldl_lengthen_from, List.flatMap_singleton]
  exact List.map_id _

/-- If the lists come from steps that may fail, lengthening fails with the first of these. -/
theorem foldlM_lengthen {f : β → Except ε (List α)} {bs : List β} (found : List (List α)) :
    (bs.foldlM (fun found b => do return lengthen found (← f b)) found) =
      (bs.mapM f).map (·.foldl lengthen found) := by
  induction bs generalizing found with
  | nil => rfl
  | cons b bs ih =>
    rw [List.foldlM_cons, List.mapM_cons]
    cases hb : f b with
    | error e => rfl
    | ok values =>
      show bs.foldlM _ (lengthen found values) = _
      rw [ih]
      cases bs.mapM f <;> rfl

end Checker

/-! ## Paths -/

theorem Path.ofLength_eq_combinations (arity n : Nat) :
    Path.ofLength arity n = Checker.combinations (List.replicate n (List.range (arity + 1))) := by
  induction n with
  | zero => rfl
  | succ n ih => rw [Path.ofLength, List.replicate_succ, Checker.combinations, ih]

theorem Path.length_ofLength (arity n : Nat) :
    (Path.ofLength arity n).length = (arity + 1) ^ n := by
  rw [Path.ofLength_eq_combinations, Checker.length_combinations, List.map_replicate,
    List.length_range, List.prod_replicate]

theorem Path.pairwise_ofLength (arity n : Nat) :
    (Path.ofLength arity n).Pairwise (List.Shortlex (· < ·)) := by
  have hlex : (Path.ofLength arity n).Pairwise (List.Lex (· < ·)) := by
    rw [Path.ofLength_eq_combinations]
    refine Checker.pairwise_combinations fun indices hindices => ?_
    rw [List.eq_of_mem_replicate hindices]
    exact List.pairwise_lt_range
  refine hlex.imp_of_mem fun {p q} hp hq hlt => List.Shortlex.of_lex ?_ hlt
  rw [(Path.mem_ofLength_iff.mp hp).1, (Path.mem_ofLength_iff.mp hq).1]

/-- Paths are found by lengthening, index by index. -/
theorem Path.foldl_lengthen_ofLength (arity n : Nat) :
    (List.range n).foldl (fun found _ => Checker.lengthen found (List.range (arity + 1))) [[]] =
      Path.ofLength arity n :=
  calc (List.range n).foldl (fun found _ => Checker.lengthen found (List.range (arity + 1))) [[]]
    _ = ((List.range n).map fun _ => List.range (arity + 1)).foldl Checker.lengthen [[]] :=
      List.foldl_map.symm
    _ = (List.replicate n (List.range (arity + 1))).foldl Checker.lengthen [[]] := by
      rw [List.map_const', List.length_range]
    _ = Path.ofLength arity n := by
      rw [Checker.foldl_lengthen, Path.ofLength_eq_combinations]

namespace Bounds

/-- The root is the only path of length zero. -/
theorem paths_eq (b : Bounds) :
    b.paths = (List.range (b.depth + 1)).flatMap (Path.ofLength b.arity) := by
  rw [List.range_succ_eq_map, List.flatMap_cons, List.flatMap_map, paths, layers,
    ← List.flatMap_def]
  rfl

/-- **Paths are listed by length, and then lexicographically.** -/
theorem pairwise_paths (b : Bounds) : b.paths.Pairwise (List.Shortlex (· < ·)) := by
  rw [paths_eq, List.pairwise_flatMap]
  constructor
  · intro n _
    exact Path.pairwise_ofLength b.arity n
  · refine List.pairwise_lt_range.imp fun {m n} hmn p hp q hq => List.Shortlex.of_length_lt ?_
    rwa [(Path.mem_ofLength_iff.mp hp).1, (Path.mem_ofLength_iff.mp hq).1]

example : (⟨1, 2, 0⟩ : Bounds).paths = [[], [0], [1], [0, 0], [0, 1], [1, 0], [1, 1]] := by decide

theorem nodup_paths (b : Bounds) : b.paths.Nodup := (pairwise_paths b).nodup

/-- The paths of each length are as many as that power of the number of slots. -/
theorem length_paths (b : Bounds) :
    b.paths.length = ∑ k ∈ Finset.range (b.depth + 1), (b.arity + 1) ^ k := by
  rw [paths_eq, List.length_flatMap]
  simp only [Path.length_ofLength]
  rfl

end Bounds

/-! ## Inputs -/

/-- A value within bounds: a path or the tag of a rule there, or a truth value. -/
def Value.Within (b : Bounds) : Value → Prop
  | .path p => b.containsPath p = true
  | .rule r => r.rule < b.ruleCount
  | .bool _ => True
  | .tree _ | .int _ => False

namespace Checker

variable {b : Bounds} {s : TransitionSystem} {ty : Ty} {v : Value}

theorem admits_iff : Admits b ty v ↔ v.ty = ty ∧ v.Within b := by
  cases ty <;> cases v <;>
    simp [Admits, Value.ty, Value.Within, Bounds.mem_paths_iff, Bounds.mem_ruleTags_iff]

theorem nodup_inputDomain {name : String} {values : List Value}
    (h : inputDomain b name ty = .ok values) : values.Nodup := by
  cases ty with
  | tree => exact nomatch h
  | int => exact nomatch h
  | path =>
    cases h
    exact (Bounds.nodup_paths b).map fun _ _ => Value.path.inj
  | rule =>
    cases h
    exact Bounds.nodup_ruleTags.map fun _ _ => Value.rule.inj
  | bool =>
    cases h
    decide

theorem exists_inputDomain (b : Bounds) (name : String) (h : ty ∈ [Ty.path, .rule, .bool]) :
    ∃ values, inputDomain b name ty = .ok values := by
  cases ty with
  | tree => exact absurd h (by decide)
  | int => exact absurd h (by decide)
  | path => exact ⟨_, rfl⟩
  | rule => exact ⟨_, rfl⟩
  | bool => exact ⟨_, rfl⟩

/-- The combinations of input values, found input by input. -/
def gatherInputs (b : Bounds) (s : TransitionSystem) : Except SystemError (List (List Value)) :=
  s.inputs.foldlM (fun found x => do return lengthen found (← inputDomain b x.1 x.2)) [[]]

theorem gatherInputs_eq (b : Bounds) (s : TransitionSystem) :
    gatherInputs b s = inputCombinations b s := by
  unfold gatherInputs inputCombinations
  rw [foldlM_lengthen]
  simp only [foldl_lengthen]
  cases s.inputs.mapM fun x => inputDomain b x.1 x.2 <;> rfl

theorem nodup_inputCombinations {choices : List (List Value)}
    (h : inputCombinations b s = .ok choices) : choices.Nodup := by
  unfold inputCombinations at h
  obtain ⟨domains, hdomains, h⟩ := bind_eq_ok_iff.mp h
  cases h
  refine nodup_combinations fun values hvalues => ?_
  obtain ⟨x, -, hx⟩ := exists_of_mem_left (mapM_eq_ok_iff.mp hdomains).flip hvalues
  exact nodup_inputDomain hx

/-- **Inputs of bounded types have combinations**: all lists of values of these types within the
bounds, each once. -/
theorem exists_inputCombinations (b : Bounds)
    (h : ∀ x ∈ s.inputs, x.2 ∈ [Ty.path, .rule, .bool]) :
    ∃ choices, inputCombinations b s = .ok choices ∧ choices.Nodup ∧
      ∀ values, values ∈ choices ↔
        List.Forall₂ (fun x v => v.ty = x.2 ∧ v.Within b) s.inputs values := by
  obtain ⟨domains, hdomains⟩ := exists_forall₂ (R := fun x values =>
    inputDomain b x.1 x.2 = .ok values) fun x hx => exists_inputDomain b x.1 (h x hx)
  have hchoices : inputCombinations b s = .ok (combinations domains) :=
    bind_eq_ok_iff.mpr ⟨domains, mapM_eq_ok_iff.mpr hdomains, rfl⟩
  refine ⟨_, hchoices, nodup_inputCombinations hchoices, fun values => ?_⟩
  rw [mem_inputCombinations hchoices, Choice]
  simp only [admits_iff]

end Checker

/-! ## What is listed within bounds -/

namespace Bounds

/-- The paths and the inputs within bounds are listed. -/
structure Enumerated (b : Bounds) : Prop where
  /-- The listed paths are those that are tested to be within the bounds, each once, -/
  complete : ∀ p, p ∈ b.paths ↔ b.containsPath p = true
  once : b.paths.Nodup
  /-- by length and then lexicographically. -/
  increasing : b.paths.Pairwise (List.Shortlex (· < ·))
  count : b.paths.length = ∑ k ∈ Finset.range (b.depth + 1), (b.arity + 1) ^ k
  /-- Those of one length are found by lengthening the empty path so many times. -/
  lengthening : ∀ n, (List.range n).foldl
    (fun found _ => Checker.lengthen found (List.range (b.arity + 1))) [[]] =
      Path.ofLength b.arity n
  /-- The combinations of inputs of bounded types are all lists of values of these types within the
  bounds, each once, -/
  inputs : ∀ s : TransitionSystem, (∀ x ∈ s.inputs, x.2 ∈ [Ty.path, .rule, .bool]) →
    ∃ choices, Checker.inputCombinations b s = .ok choices ∧ choices.Nodup ∧
      ∀ values, values ∈ choices ↔
        List.Forall₂ (fun x v => v.ty = x.2 ∧ v.Within b) s.inputs values
  /-- and are found by lengthening, too. -/
  gathering : ∀ s, Checker.gatherInputs b s = Checker.inputCombinations b s

/-- **Paths and inputs are listed completely and without repetition**, within any bounds. -/
theorem enumerated (b : Bounds) : b.Enumerated where
  complete _ := mem_paths_iff
  once := nodup_paths b
  increasing := pairwise_paths b
  count := length_paths b
  lengthening := Path.foldl_lengthen_ofLength b.arity
  inputs _ := Checker.exists_inputCombinations b
  gathering := Checker.gatherInputs_eq b

/-- A system without states, and with one input of each bounded type. -/
def threeInputs : TransitionSystem where
  states := []
  inputs := [("place", .path), ("by", .rule), ("go", .bool)]
  init := ∅
  next := ∅
  target? := none

/-- Two steps down among three slots: thirteen paths, which the inputs range over; a path that leaves
the slots is no choice, and neither are values in another order. -/
theorem enumerated_binary : (⟨2, 2, 3⟩ : Bounds).paths.length = 1 + 3 + 9 ∧
    (∀ x ∈ threeInputs.inputs, x.2 ∈ [Ty.path, .rule, .bool]) ∧
    ∃ choices, Checker.inputCombinations ⟨2, 2, 3⟩ threeInputs = .ok choices ∧ choices.Nodup ∧
      [.path [2, 0], .rule ⟨2, .reverse⟩, .bool true] ∈ choices ∧
      [.path [3], .rule ⟨2, .reverse⟩, .bool true] ∉ choices ∧
      [.rule ⟨2, .reverse⟩, .path [2, 0], .bool true] ∉ choices := by
  have htypes : ∀ x ∈ threeInputs.inputs, x.2 ∈ [Ty.path, .rule, .bool] := by decide
  obtain ⟨choices, hchoices, hnodup, hmem⟩ := (enumerated ⟨2, 2, 3⟩).inputs threeInputs htypes
  refine ⟨(enumerated ⟨2, 2, 3⟩).count, htypes, choices, hchoices, hnodup, ?_, ?_, ?_⟩
  · rw [hmem]
    simp [threeInputs, Value.ty, Value.Within, containsPath]
  · rw [hmem]
    simp [threeInputs, Value.ty, Value.Within, containsPath]
  · rw [hmem]
    simp [threeInputs, Value.ty]

end Bounds

end SortedRewriting
