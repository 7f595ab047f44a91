import Mathlib.Data.List.Forall2

/-!
# Steps that may fail, and lists of them

A step after another succeeds exactly when both do (`bind_eq_ok_iff`, `bind₂_eq_ok_iff`) and fails
when one of them does (`bind_eq_error_iff`); a pass over a list succeeds exactly when every step does (`mapM_eq_ok_iff`),
and undoes another pass if every step does (`mapM_map_eq_some`). Lists that are related element by
element have a partner for every element (`exists_of_mem_left`), and such relations compose
(`forall₂_trans_mem`). The first element that passes a test is told by the places of those that do
(`find?_eq_some_iff_idxOf`).
-/

namespace SortedRewriting

variable {α β ε : Type}

/-- A sequence of two steps succeeds exactly when both do. -/
theorem bind_eq_ok_iff {x : Except ε α} {f : α → Except ε β} {b : β} :
    (x >>= f) = .ok b ↔ ∃ a, x = .ok a ∧ f a = .ok b := by
  cases x with
  | error e => exact ⟨nofun, fun ⟨_, h, _⟩ => nomatch h⟩
  | ok a => exact ⟨fun h => ⟨a, rfl, h⟩, fun ⟨_, h, hb⟩ => by cases h; exact hb⟩

/-- What is made of the results of two steps is found exactly when both succeed. -/
theorem bind₂_eq_ok_iff {γ : Type} {x : Except ε α} {y : Except ε β} {f : α → β → γ} {c : γ} :
    (x >>= fun a => y >>= fun b => .ok (f a b)) = .ok c ↔
      ∃ a b, x = .ok a ∧ y = .ok b ∧ c = f a b := by
  simp only [bind_eq_ok_iff]
  constructor
  · rintro ⟨a, ha, b, hb, h⟩
    exact ⟨a, b, ha, hb, (Except.ok.inj h).symm⟩
  · rintro ⟨a, b, ha, hb, rfl⟩
    exact ⟨a, ha, b, hb, rfl⟩

/-- It fails when the first does, or the second after it. -/
theorem bind_eq_error_iff {x : Except ε α} {f : α → Except ε β} {err : ε} :
    (x >>= f) = .error err ↔ x = .error err ∨ ∃ a, x = .ok a ∧ f a = .error err := by
  cases x with
  | error e =>
    refine ⟨fun h => .inl (congrArg Except.error (Except.error.inj h)), ?_⟩
    rintro (h | ⟨_, h, -⟩)
    · exact congrArg Except.error (Except.error.inj h)
    · cases h
  | ok a =>
    refine ⟨fun h => .inr ⟨a, rfl, h⟩, ?_⟩
    rintro (h | ⟨_, ha, h⟩)
    · cases h
    · cases ha
      exact h

/-- A step succeeds, whatever its errors are turned into. -/
theorem mapError_eq_ok_iff {ε' : Type} {f : ε → ε'} {x : Except ε α} {a : α} :
    x.mapError f = .ok a ↔ x = .ok a := by
  cases x with
  | error e => exact ⟨nofun, nofun⟩
  | ok b => exact ⟨fun h => congrArg Except.ok (Except.ok.inj h), fun h => by rw [h]; rfl⟩

theorem mapError_eq_error_iff {ε' : Type} {f : ε → ε'} {x : Except ε α} {err : ε'} :
    x.mapError f = .error err ↔ ∃ err', x = .error err' ∧ f err' = err := by
  cases x with
  | error e =>
    refine ⟨fun h => ⟨e, rfl, Except.error.inj h⟩, ?_⟩
    rintro ⟨_, he, h⟩
    cases he
    exact congrArg Except.error h
  | ok b => exact ⟨nofun, fun ⟨_, h, _⟩ => nomatch h⟩

/-- If every element of a list has a partner, there is a list of partners. -/
theorem exists_forall₂ {R : α → β → Prop} {as : List α} (h : ∀ a ∈ as, ∃ b, R a b) :
    ∃ bs, List.Forall₂ R as bs := by
  induction as with
  | nil => exact ⟨[], .nil⟩
  | cons a as ih =>
    obtain ⟨ha, has⟩ := List.forall_mem_cons.mp h
    obtain ⟨b, hb⟩ := ha
    obtain ⟨bs, hbs⟩ := ih has
    exact ⟨b :: bs, .cons hb hbs⟩

/-- Every element of the left list has a partner in the right one. -/
theorem exists_of_mem_left {R : α → β → Prop} {as : List α} {bs : List β}
    (h : List.Forall₂ R as bs) {a : α} (ha : a ∈ as) : ∃ b ∈ bs, R a b := by
  induction h with
  | nil => exact absurd ha List.not_mem_nil
  | @cons a' b' as bs hab _ ih =>
    rcases List.mem_cons.mp ha with rfl | ha
    · exact ⟨b', List.mem_cons_self, hab⟩
    · obtain ⟨b, hb, h⟩ := ih ha
      exact ⟨b, List.mem_cons_of_mem _ hb, h⟩

/-- An element of the left list has its partner at the same place. -/
theorem exists_getElem?_of_forall₂ {R : α → β → Prop} {as : List α} {bs : List β}
    (h : List.Forall₂ R as bs) {i : Nat} {a : α} (ha : as[i]? = some a) :
    ∃ b, bs[i]? = some b ∧ R a b := by
  induction h generalizing i with
  | nil => exact absurd ha nofun
  | cons hab _ ih =>
    cases i with
    | zero =>
      cases ha
      exact ⟨_, rfl, hab⟩
    | succ i => exact ih ha

/-- Related elements of two lists may be related otherwise. -/
theorem forall₂_imp_mem {R S : α → β → Prop} {as : List α} {bs : List β} (h : List.Forall₂ R as bs)
    (hRS : ∀ a ∈ as, ∀ b ∈ bs, R a b → S a b) : List.Forall₂ S as bs := by
  induction h with
  | nil => exact .nil
  | cons hab _ ih =>
    exact .cons (hRS _ List.mem_cons_self _ List.mem_cons_self hab)
      (ih fun a ha b hb => hRS a (List.mem_cons_of_mem _ ha) b (List.mem_cons_of_mem _ hb))

/-- Relations between lists compose. -/
theorem forall₂_trans_mem {γ : Type} {R : α → β → Prop} {S : β → γ → Prop} {T : α → γ → Prop}
    {as : List α} {bs : List β} {cs : List γ} (h : List.Forall₂ R as bs)
    (h' : List.Forall₂ S bs cs) (hRST : ∀ a ∈ as, ∀ b ∈ bs, ∀ c, R a b → S b c → T a c) :
    List.Forall₂ T as cs := by
  induction h generalizing cs with
  | nil =>
    cases h'
    exact .nil
  | cons hab _ ih =>
    cases h' with
    | cons hbc h' =>
      exact .cons (hRST _ List.mem_cons_self _ List.mem_cons_self _ hab hbc) <|
        ih h' fun a ha b hb => hRST a (List.mem_cons_of_mem _ ha) b (List.mem_cons_of_mem _ hb)

/-- Related lists stay related when related elements are put at one place. -/
theorem forall₂_set {R : α → β → Prop} {as : List α} {bs : List β} (h : List.Forall₂ R as bs)
    (i : Nat) {a : α} {b : β} (hab : R a b) : List.Forall₂ R (as.set i a) (bs.set i b) := by
  induction h generalizing i with
  | nil => exact .nil
  | cons hab' h ih =>
    cases i with
    | zero => exact .cons hab h
    | succ i => exact .cons hab' (ih i)

/-- A pass over a list answers with the answers of its steps. -/
theorem mapM_eq_ok_iff {f : α → Except ε β} {as : List α} {bs : List β} :
    as.mapM f = .ok bs ↔ List.Forall₂ (fun a b => f a = .ok b) as bs := by
  induction as generalizing bs with
  | nil =>
    rw [List.mapM_nil, List.forall₂_nil_left_iff]
    exact ⟨fun h => (Except.ok.inj h).symm, fun h => congrArg Except.ok h.symm⟩
  | cons a as ih =>
    rw [List.mapM_cons, List.forall₂_cons_left_iff]
    refine bind₂_eq_ok_iff.trans ?_
    simp only [ih]

/-- A pass gives back the elements of a list if every step does. -/
theorem mapM_map_eq_some {write : α → β} {read : β → Option α} {as : List α}
    (h : ∀ a ∈ as, read (write a) = some a) : (as.map write).mapM read = some as := by
  induction as with
  | nil => rfl
  | cons a as ih =>
    obtain ⟨ha, has⟩ := List.forall_mem_cons.mp h
    rw [List.map_cons, List.mapM_cons, ha, ih has]
    rfl

/-- Without its repetitions a list has none. -/
theorem nodup_eraseDups [BEq α] [LawfulBEq α] : (as : List α) → as.eraseDups.Nodup
  | [] => by
    rw [List.eraseDups_nil]
    exact List.nodup_nil
  | a :: as => by
    rw [List.eraseDups_cons, List.nodup_cons, List.mem_eraseDups, List.mem_filter]
    exact ⟨fun h => by simp at h, nodup_eraseDups (as.filter fun b => !b == a)⟩
termination_by as => as.length
decreasing_by exact Nat.lt_succ_of_le (List.length_filter_le _ as)

/-- The first of a list that passes a test is a given one exactly if none before it passes. -/
theorem find?_eq_some_iff_idxOf [BEq α] [LawfulBEq α] {l : List α} {p : α → Bool} {a : α}
    (ha : a ∈ l) (hp : p a = true) :
    l.find? p = some a ↔ ∀ a', p a' = true → a' ≠ a → ¬ l.idxOf a' < l.idxOf a := by
  induction l with
  | nil => exact absurd ha List.not_mem_nil
  | cons x l ih =>
    by_cases hx : x = a
    · subst hx
      simp [hp]
    · have ha : a ∈ l := (List.mem_cons.mp ha).resolve_left (Ne.symm hx)
      rw [List.find?_cons]
      cases hpx : p x with
      | true =>
        refine ⟨fun h => absurd (Option.some.inj h) hx, fun h => absurd ?_ (h x hpx hx)⟩
        rw [List.idxOf_cons_self, List.idxOf_cons_ne l hx]
        exact Nat.succ_pos _
      | false =>
        simp only [ih ha, List.idxOf_cons_ne l hx]
        refine forall_congr' fun a' => imp_congr_right fun hp' => ?_
        have hxa' : x ≠ a' := by
          rintro rfl
          rw [hpx] at hp'
          cases hp'
        rw [List.idxOf_cons_ne l hxa', Nat.succ_lt_succ_iff]

/-- A check that succeeds is of a value. -/
theorem exists_ok_of_any {ε α : Type} {x : Except ε α} {p : α → Bool}
    (h : x.toOption.any p = true) : ∃ a, x = .ok a ∧ p a = true := by
  cases x with
  | error e => exact absurd h nofun
  | ok a => exact ⟨a, rfl, h⟩

end SortedRewriting
