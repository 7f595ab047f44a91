import Mathlib.Data.List.Nodup
import SortedRewriting.Tree.Bounds

/-!
# The ranges of a search

* `Bounds.mem_paths_iff`: the listed paths are those within the bounds.
* `Bounds.mem_ruleTags_iff`: the listed rule tags are those of the rules.
-/

namespace SortedRewriting

theorem Path.mem_ofLength_iff {arity n : Nat} {p : Path} :
    p ∈ Path.ofLength arity n ↔ p.length = n ∧ ∀ i ∈ p, i ≤ arity := by
  induction n generalizing p with
  | zero =>
    rw [Path.ofLength, List.mem_singleton, List.length_eq_zero_iff]
    exact ⟨fun h => ⟨h, by simp [h]⟩, And.left⟩
  | succ n ih =>
    rw [Path.ofLength, List.mem_flatMap]
    constructor
    · rintro ⟨i, hi, hp⟩
      obtain ⟨q, hq, rfl⟩ := List.mem_map.mp hp
      obtain ⟨hlen, hall⟩ := ih.mp hq
      refine ⟨by rw [List.length_cons, hlen], List.forall_mem_cons.mpr ⟨?_, hall⟩⟩
      have := List.mem_range.mp hi
      omega
    · rintro ⟨hlen, hall⟩
      obtain ⟨i, q, rfl⟩ := List.exists_cons_of_length_eq_add_one hlen
      obtain ⟨hi, hq⟩ := List.forall_mem_cons.mp hall
      refine ⟨i, List.mem_range.mpr (by omega), List.mem_map.mpr ⟨q, ih.mpr ⟨?_, hq⟩, rfl⟩⟩
      rw [List.length_cons] at hlen
      omega

namespace Bounds

variable {b : Bounds} {p : Path}

theorem containsPath_iff : b.containsPath p = true ↔ p.length ≤ b.depth ∧ ∀ i ∈ p, i ≤ b.arity := by
  simp [containsPath]

/-- The paths below the root. -/
theorem mem_layers_iff : p ∈ b.layers.flatten ↔ p ≠ [] ∧ b.containsPath p = true := by
  rw [List.mem_flatten, containsPath_iff]
  constructor
  · rintro ⟨layer, hlayer, hp⟩
    obtain ⟨n, hn, rfl⟩ := List.mem_map.mp hlayer
    obtain ⟨hlen, hall⟩ := Path.mem_ofLength_iff.mp hp
    have := List.mem_range.mp hn
    refine ⟨fun h => ?_, by omega, hall⟩
    rw [h, List.length_nil] at hlen
    omega
  · rintro ⟨hne, hlen, hall⟩
    have hpos : 0 < p.length := List.length_pos_iff.mpr hne
    refine ⟨_, List.mem_map_of_mem (a := p.length - 1) (List.mem_range.mpr (by omega)), ?_⟩
    exact Path.mem_ofLength_iff.mpr ⟨by omega, hall⟩

theorem mem_paths_iff : p ∈ b.paths ↔ b.containsPath p = true := by
  rw [paths, List.mem_cons, mem_layers_iff]
  by_cases hp : p = []
  · subst hp
    simp [containsPath_iff]
  · simp [hp]

theorem mem_ruleTags_iff {tag : RuleTag} : tag ∈ b.ruleTags ↔ tag.rule < b.ruleCount := by
  obtain ⟨r, dir⟩ := tag
  rw [ruleTags, List.mem_flatMap]
  constructor
  · rintro ⟨r', hr, h⟩
    have := List.mem_range.mp hr
    simp only [List.mem_cons, RuleTag.mk.injEq, List.not_mem_nil, or_false] at h
    rcases h with ⟨rfl, -⟩ | ⟨rfl, -⟩ <;> exact this
  · intro hr
    refine ⟨r, List.mem_range.mpr hr, ?_⟩
    cases dir
    · exact List.mem_cons_self
    · exact List.mem_cons_of_mem _ List.mem_cons_self

theorem nodup_ruleTags : b.ruleTags.Nodup := by
  unfold ruleTags
  rw [List.nodup_flatMap]
  refine ⟨fun r _ => by simp, ?_⟩
  refine List.nodup_range.imp fun {r r'} hne => ?_
  intro tag h h'
  simp only [List.mem_cons, List.not_mem_nil, or_false] at h h'
  rcases h with rfl | rfl <;> simp_all

end Bounds

end SortedRewriting
