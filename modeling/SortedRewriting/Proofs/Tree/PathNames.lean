import Mathlib.Data.Nat.Digits.Lemmas
import SortedRewriting.Proofs.Tree.Bounds

/-!
# Names of paths

The name of a path runs its indices together, or separates them if one of them has several digits.
What stands between the separators are its *pieces* (`Path.pieces`), which can be read back from the
name. A path of one index has no separator, though: if the index has several digits, it is named
like the path of these digits (`Path.SpeltBy`).

* `Path.text_eq_text_iff`: no other paths share a name.
* **`Bounds.text_inj_iff`**: so the paths within bounds have different names if and only if all
  their indices have one digit, or none of them is longer than one.
* `Bounds.text_clash`: two paths of one name.
-/

namespace SortedRewriting

namespace Path

variable {p q : Path} {i j k : Nat}

/-! ## Digits -/

/-- Numbers are told apart by their digits. -/
theorem toDigits_injective : Function.Injective (Nat.toDigits 10) :=
  Function.LeftInverse.injective (g := (Nat.ofDigitChars 10 · 0)) fun _ =>
    Nat.ofDigitChars_ten_toDigits

/-- Digits are written from the highest to the lowest. -/
theorem toDigits_eq_map_digits (hk : 0 < k) :
    Nat.toDigits 10 k = (Nat.digits 10 k).reverse.map Nat.digitChar := by
  induction k using Nat.strongRecOn with
  | ind k ih =>
    rw [Nat.toDigits_eq_if (by decide), Nat.digits_def' (by decide) hk]
    split
    · rename_i hlt
      rw [Nat.div_eq_of_lt hlt, Nat.mod_eq_of_lt hlt, Nat.digits_zero]
      rfl
    · rw [ih (k / 10) (by omega) (by omega), List.reverse_cons, List.map_append]
      rfl

/-! ## Pieces -/

/-- All indices have one digit. -/
def OneDigit (p : Path) : Prop := ∀ i ∈ p, i ≤ 9

/-- What stands between the separators of a name. -/
def pieces (p : Path) : List (List Char) :=
  if p.any (9 < ·) then p.map (Nat.toDigits 10) else [p.map Nat.digitChar]

theorem any_eq_false_iff : p.any (9 < ·) = false ↔ p.OneDigit := by
  simp [OneDigit]

theorem pieces_of_oneDigit (h : p.OneDigit) : p.pieces = [p.map Nat.digitChar] := by
  unfold pieces
  rw [any_eq_false_iff.mpr h]
  rfl

theorem pieces_of_not_oneDigit (h : ¬ p.OneDigit) : p.pieces = p.map (Nat.toDigits 10) := by
  unfold pieces
  rw [Bool.of_not_eq_false (any_eq_false_iff.not.mpr h)]
  rfl

theorem map_toDigits_of_oneDigit (h : p.OneDigit) :
    p.map (Nat.toDigits 10) = (p.map Nat.digitChar).map ([·]) := by
  rw [List.map_map]
  exact List.map_congr_left fun i hi => Nat.toDigits_of_lt_base (Nat.lt_succ_of_le (h i hi))

theorem map_digitChar_inj (hp : p.OneDigit) (hq : q.OneDigit)
    (h : p.map Nat.digitChar = q.map Nat.digitChar) : p = q := by
  apply toDigits_injective.list_map
  rw [map_toDigits_of_oneDigit hp, map_toDigits_of_oneDigit hq, h]

theorem intercalate_nil_map_singleton (l : List Char) : List.intercalate [] (l.map ([·])) = l := by
  induction l with
  | nil => rfl
  | cons c l ih =>
    cases l with
    | nil => rfl
    | cons d l =>
      rw [List.map_cons, List.map_cons, List.intercalate_cons_cons]
      exact congrArg (c :: ·) ih

/-- A name consists of its pieces. -/
theorem toList_text (h : p ≠ []) : (text p).toList = 'P' :: ['_'].intercalate p.pieces := by
  have hempty : p.isEmpty = false := by simpa using h
  have hdigits : String.toList ∘ toString = Nat.toDigits 10 := funext fun _ => Nat.toList_repr
  unfold text
  rw [hempty]
  show ("P" ++ String.intercalate _ (p.map toString)).toList = _
  rw [String.toList_append, String.toList_intercalate, List.map_map, hdigits]
  by_cases hone : p.OneDigit
  · rw [any_eq_false_iff.mpr hone, pieces_of_oneDigit hone, List.intercalate_singleton,
      map_toDigits_of_oneDigit hone]
    exact congrArg ('P' :: ·) (intercalate_nil_map_singleton _)
  · rw [Bool.of_not_eq_false (any_eq_false_iff.not.mpr hone), pieces_of_not_oneDigit hone]
    rfl

theorem pieces_ne_nil (h : p ≠ []) : p.pieces ≠ [] := by
  by_cases hone : p.OneDigit
  · rw [pieces_of_oneDigit hone]
    exact List.cons_ne_nil _ _
  · rw [pieces_of_not_oneDigit hone]
    exact fun hnil => h (List.map_eq_nil_iff.mp hnil)

/-- The separator is no digit. -/
theorem not_mem_pieces {l : List Char} (hl : l ∈ p.pieces) : '_' ∉ l := by
  have hdigits : ∀ i, '_' ∉ Nat.toDigits 10 i := fun i hi =>
    absurd (Nat.isDigit_of_mem_toDigits (by decide) (Nat.le_refl 10) hi) (by decide)
  by_cases hone : p.OneDigit
  · rw [pieces_of_oneDigit hone, List.mem_singleton] at hl
    rw [hl]
    intro hmem
    have hchars : ['_'] ∈ p.map (Nat.toDigits 10) := by
      rw [map_toDigits_of_oneDigit hone]
      exact List.mem_map_of_mem hmem
    obtain ⟨i, -, hi⟩ := List.mem_map.mp hchars
    exact hdigits i (hi ▸ List.mem_singleton_self _)
  · rw [pieces_of_not_oneDigit hone] at hl
    obtain ⟨i, -, rfl⟩ := List.mem_map.mp hl
    exact hdigits i

/-- Paths below the root have one name if they have the same pieces. -/
theorem text_eq_text_iff_pieces (hp : p ≠ []) (hq : q ≠ []) :
    text p = text q ↔ p.pieces = q.pieces := by
  constructor
  · intro h
    have hlist := congrArg String.toList h
    rw [toList_text hp, toList_text hq] at hlist
    calc p.pieces = (['_'].intercalate p.pieces).splitOn '_' :=
          (List.splitOn_intercalate _ (fun _ => not_mem_pieces) (pieces_ne_nil hp)).symm
      _ = (['_'].intercalate q.pieces).splitOn '_' := by rw [(List.cons.inj hlist).2]
      _ = q.pieces := List.splitOn_intercalate _ (fun _ => not_mem_pieces) (pieces_ne_nil hq)
  · intro h
    apply String.toList_injective
    rw [toList_text hp, toList_text hq, h]

/-! ## Paths of one name -/

/-- The path is one index of several digits, and the other path consists of these. -/
def SpeltBy (p q : Path) : Prop := ∃ k, 9 < k ∧ p = [k] ∧ q = (Nat.digits 10 k).reverse

theorem oneDigit_digits (k : Nat) : OneDigit (Nat.digits 10 k).reverse := by
  intro i hi
  have := Nat.digits_lt_base (by decide : 1 < 10) (List.mem_reverse.mp hi)
  omega

/-- A path with an index of several digits has the pieces of one whose indices have one digit if it
is spelt by it. -/
theorem pieces_eq_pieces_iff (hp : ¬ p.OneDigit) (hq : q.OneDigit) :
    p.pieces = q.pieces ↔ SpeltBy p q := by
  rw [pieces_of_not_oneDigit hp, pieces_of_oneDigit hq]
  constructor
  · intro h
    -- one piece on the right, so one index on the left
    obtain ⟨k, rfl, hk⟩ := List.map_eq_singleton_iff.mp h
    have hlarge : 9 < k := by
      by_contra hle
      exact hp (List.forall_mem_singleton.mpr (Nat.le_of_not_lt hle))
    rw [toDigits_eq_map_digits (by omega)] at hk
    exact ⟨k, hlarge, rfl, (map_digitChar_inj (oneDigit_digits k) hq hk).symm⟩
  · rintro ⟨k, hlarge, rfl, rfl⟩
    rw [List.map_singleton, toDigits_eq_map_digits (by omega)]

theorem SpeltBy.not_oneDigit (h : SpeltBy p q) : ¬ p.OneDigit := by
  obtain ⟨k, hk, rfl, -⟩ := h
  intro hone
  have := hone k (List.mem_singleton_self k)
  omega

theorem SpeltBy.oneDigit (h : SpeltBy p q) : q.OneDigit := by
  obtain ⟨k, -, -, rfl⟩ := h
  exact oneDigit_digits k

theorem SpeltBy.one_lt_length (h : SpeltBy p q) : 1 < q.length := by
  obtain ⟨k, hk, -, rfl⟩ := h
  rw [List.length_reverse, Nat.lt_digits_length_iff (by decide)]
  omega

theorem SpeltBy.text_eq (h : SpeltBy p q) : text p = text q := by
  have hp : p ≠ [] := by
    obtain ⟨k, -, rfl, -⟩ := h
    exact List.cons_ne_nil _ _
  have hq : q ≠ [] := List.ne_nil_of_length_pos (Nat.zero_lt_of_lt h.one_lt_length)
  rw [text_eq_text_iff_pieces hp hq, pieces_eq_pieces_iff h.not_oneDigit h.oneDigit]
  exact h

theorem eq_nil_of_text_eq (h : text p = text []) : p = [] := by
  by_contra hp
  have hlist := congrArg String.toList h
  rw [toList_text hp] at hlist
  exact absurd (List.cons.inj hlist).1 (by decide)

/-- **Two paths have one name only if one of them spells the other.** -/
theorem text_eq_text_iff : text p = text q ↔ p = q ∨ SpeltBy p q ∨ SpeltBy q p := by
  constructor
  · intro h
    by_cases hp : p = []
    · subst hp
      exact .inl (eq_nil_of_text_eq h.symm).symm
    by_cases hq : q = []
    · subst hq
      exact .inl (eq_nil_of_text_eq h)
    rw [text_eq_text_iff_pieces hp hq] at h
    by_cases hp' : p.OneDigit <;> by_cases hq' : q.OneDigit
    · rw [pieces_of_oneDigit hp', pieces_of_oneDigit hq', List.singleton_inj] at h
      exact .inl (map_digitChar_inj hp' hq' h)
    · exact .inr (.inr ((pieces_eq_pieces_iff hq' hp').mp h.symm))
    · exact .inr (.inl ((pieces_eq_pieces_iff hp' hq').mp h))
    · rw [pieces_of_not_oneDigit hp', pieces_of_not_oneDigit hq'] at h
      exact .inl (toDigits_injective.list_map h)
  · rintro (rfl | h | h)
    · rfl
    · exact h.text_eq
    · exact h.text_eq.symm

end Path

/-! ## Paths within bounds -/

namespace Bounds

variable {b : Bounds} {p q : Path}

theorem not_speltBy (h : b.arity ≤ 9 ∨ b.depth ≤ 1) (hp : p ∈ b.paths) (hq : q ∈ b.paths) :
    ¬ p.SpeltBy q := by
  intro hs
  obtain ⟨-, hindices⟩ := containsPath_iff.mp (mem_paths_iff.mp hp)
  obtain ⟨hlen, -⟩ := containsPath_iff.mp (mem_paths_iff.mp hq)
  rcases h with harity | hdepth
  · exact hs.not_oneDigit fun i hi => Nat.le_trans (hindices i hi) harity
  · have := hs.one_lt_length
    omega

/-- **Paths within bounds have different names**, if no index has several digits or no path is
longer than one; otherwise there are two of one name. -/
theorem text_inj_iff (b : Bounds) :
    (∀ p ∈ b.paths, ∀ q ∈ b.paths, Path.text p = Path.text q → p = q) ↔
      b.arity ≤ 9 ∨ b.depth ≤ 1 := by
  constructor
  · intro h
    by_contra hlarge
    have hten : [10] ∈ b.paths := by
      rw [mem_paths_iff, containsPath_iff]
      exact ⟨by simp only [List.length_singleton]; omega, by simp; omega⟩
    have hdigits : [1, 0] ∈ b.paths := by
      rw [mem_paths_iff, containsPath_iff]
      exact ⟨by simp only [List.length_cons, List.length_nil]; omega, by simp; omega⟩
    have hspelt : Path.SpeltBy [10] [1, 0] := ⟨10, by decide, rfl, by simp⟩
    exact absurd (h _ hten _ hdigits hspelt.text_eq) (by decide)
  · intro h p hp q hq htext
    rcases Path.text_eq_text_iff.mp htext with rfl | hs | hs
    · rfl
    · exact absurd hs (not_speltBy h hp hq)
    · exact absurd hs (not_speltBy h hq hp)

/-- A node with eleven slots has a last one that is named like the first slot of its second. -/
theorem text_clash : [10] ∈ (⟨10, 2, 0⟩ : Bounds).paths ∧ [1, 0] ∈ (⟨10, 2, 0⟩ : Bounds).paths ∧
    Path.text [10] = "P10" ∧ Path.text [1, 0] = "P10" := by decide

end Bounds

end SortedRewriting
