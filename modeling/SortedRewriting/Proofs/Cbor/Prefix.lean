import SortedRewriting.Cbor.Reader

/-!
# Readers do not look ahead

A reader takes a prefix of its input. It is `Stable` if it reads the same with more bytes behind the
input, which it then leaves. Every reader of the format is stable, so that no item is the beginning
of another: where an item is read from all of the input, none is read from a part of it.

* `Reader.Stable.bind`: what is read one after the other is stable if each part is.
* **`Reader.stable_item`**: so items are.
* `Item.decode_prefix`, `Item.decode_append`: what is cut off, or has bytes behind it, is refused.
-/

namespace SortedRewriting.Cbor

namespace Reader

variable {α β : Type}

/-- A sequence of two readers succeeds exactly when both do. -/
theorem bind_eq_some_iff {r : Reader α} {f : α → Reader β} {bs rest : List UInt8} {b : β} :
    (r >>= f) bs = some (b, rest) ↔ ∃ a bs', r bs = some (a, bs') ∧ f a bs' = some (b, rest) := by
  show (r bs).bind (fun p => f p.1 p.2) = _ ↔ _
  cases r bs with
  | none => exact ⟨nofun, fun ⟨_, _, h, _⟩ => nomatch h⟩
  | some p => exact ⟨fun h => ⟨p.1, p.2, rfl, h⟩, fun ⟨_, _, hp, h⟩ => by cases hp; exact h⟩

/-- The answer of a reader stays the same with more bytes behind the input. -/
def Stable (r : Reader α) : Prop :=
  ∀ ⦃bs a rest⦄, r bs = some (a, rest) → ∀ more, r (bs ++ more) = some (a, rest ++ more)

theorem stable_pure (a : α) : Stable (pure a) := fun _ _ _ h _ => by
  cases h
  rfl

theorem stable_failure : Stable (failure : Reader α) := fun _ _ _ h => nomatch h

theorem Stable.bind {r : Reader α} {f : α → Reader β} (hr : Stable r) (hf : ∀ a, Stable (f a)) :
    Stable (r >>= f) := fun _ _ _ h more => by
  obtain ⟨a, bs', ha, hb⟩ := bind_eq_some_iff.mp h
  exact bind_eq_some_iff.mpr ⟨a, bs' ++ more, hr ha more, hf a hb more⟩

/-! ## Heads and strings -/

theorem stable_byte : Stable byte := fun bs b rest h more => by
  cases bs with
  | nil => exact nomatch h
  | cons b bs =>
    cases h
    rfl

theorem stable_take (n : Nat) : Stable (take n) := fun bs a rest h more => by
  unfold take at h ⊢
  split at h
  · rename_i hn
    cases h
    rw [if_pos (by rw [List.length_append]; exact Nat.le_trans hn (Nat.le_add_right _ _)),
      List.take_append_of_le_length hn, List.drop_append_of_le_length hn]
  · exact absurd h nofun

theorem stable_argument (info : Nat) : Stable (argument info) := by
  unfold argument
  split
  · exact stable_pure _
  · split
    · exact (stable_take 1).bind fun _ => stable_pure _
    · exact (stable_take 2).bind fun _ => stable_pure _
    · exact (stable_take 4).bind fun _ => stable_pure _
    · exact (stable_take 8).bind fun _ => stable_pure _
    · exact stable_pure _
    · exact stable_failure

theorem stable_definiteArgument (info : Nat) : Stable (definiteArgument info) := by
  refine (stable_argument info).bind fun a => ?_
  cases a with
  | definite n direct => exact stable_pure _
  | indefinite => exact stable_failure

/-! ## Many items -/

theorem stable_many {r : Reader α} (hr : Stable r) (n : Nat) : Stable (many r n) := by
  induction n with
  | zero => exact stable_pure _
  | succ n ih => exact hr.bind fun _ => ih.bind fun _ => stable_pure _

/-- The end is looked for before an item is read. -/
theorem untilBreak_cons (r : Reader α) (n : Nat) (b : UInt8) (bs : List UInt8) :
    untilBreak r (n + 1) (b :: bs) =
      if b = breakByte then some ([], bs)
      else (r >>= fun a => untilBreak r n >>= fun as => pure (a :: as)) (b :: bs) := by
  show (if b = breakByte then _ else _ : Reader (List α)) (b :: bs) = _
  split <;> rfl

/-- More items may follow than are read. -/
theorem untilBreak_mono {r : Reader α} {n m : Nat} {bs rest : List UInt8} {as : List α}
    (h : untilBreak r n bs = some (as, rest)) (hnm : n ≤ m) :
    untilBreak r m bs = some (as, rest) := by
  induction n generalizing m bs as rest with
  | zero => exact nomatch h
  | succ n ih =>
    obtain ⟨m, rfl⟩ : ∃ k, m = k + 1 := ⟨m - 1, by omega⟩
    cases bs with
    | nil => exact nomatch h
    | cons b bs =>
      rw [untilBreak_cons] at h ⊢
      split at h
      · rename_i hb
        rwa [if_pos hb]
      · rename_i hb
        rw [if_neg hb]
        obtain ⟨a, bs', ha, h⟩ := bind_eq_some_iff.mp h
        obtain ⟨as', bs'', has, h⟩ := bind_eq_some_iff.mp h
        exact bind_eq_some_iff.mpr ⟨a, bs', ha,
          bind_eq_some_iff.mpr ⟨as', bs'', ih has (Nat.le_of_succ_le_succ hnm), h⟩⟩

theorem stable_untilBreak {r : Reader α} (hr : Stable r) (n : Nat) : Stable (untilBreak r n) := by
  induction n with
  | zero => exact stable_failure
  | succ n ih =>
    intro bs as rest h more
    cases bs with
    | nil => exact nomatch h
    | cons b bs =>
      rw [List.cons_append]
      rw [untilBreak_cons] at h ⊢
      split at h
      · rename_i hb
        cases h
        exact if_pos hb
      · rename_i hb
        rw [if_neg hb]
        exact hr.bind (fun _ => ih.bind fun _ => stable_pure _) h more

theorem stable_allUntilBreak {r : Reader α} (hr : Stable r) : Stable (allUntilBreak r) := by
  intro bs as rest h more
  refine untilBreak_mono (stable_untilBreak hr _ h more) ?_
  rw [List.length_append]
  omega

theorem stable_counted {r : Reader α} (hr : Stable r) (a : Argument) : Stable (counted r a) := by
  cases a with
  | definite n direct => exact stable_many hr n
  | indefinite => exact stable_allUntilBreak hr

theorem stable_chunk (major : Major) : Stable (chunk major) := by
  refine stable_byte.bind fun b => ?_
  split
  · exact (stable_definiteArgument _).bind stable_take
  · exact stable_failure

theorem stable_string (major : Major) (info : Nat) : Stable (string major info) := by
  refine (stable_argument info).bind fun a => ?_
  cases a with
  | definite n direct => exact stable_take n
  | indefinite => exact (stable_allUntilBreak (stable_chunk major)).bind fun _ => stable_pure _

/-! ## Items -/

theorem stable_utf8 (bs : List UInt8) : Stable (utf8 bs) := by
  unfold utf8
  split
  · exact stable_pure _
  · exact stable_failure

theorem stable_simple (info : Nat) : Stable (simple info) := by
  unfold simple
  split
  · exact stable_pure _
  · exact stable_pure _
  · exact stable_pure _
  · exact stable_pure _
  · exact (stable_take 2).bind fun _ => stable_pure _
  · exact (stable_take 4).bind fun _ => stable_pure _
  · exact (stable_take 8).bind fun _ => stable_pure _
  · exact stable_failure

theorem stable_container {r : Reader Item} (hr : Stable r) (major info : Nat) :
    Stable (container r major info) := by
  unfold container
  split
  · exact (stable_argument info).bind fun a => (stable_counted hr a).bind fun _ => stable_pure _
  · have hentry : Stable (entry r) := hr.bind fun _ => hr.bind fun _ => stable_pure _
    exact (stable_argument info).bind fun a => (stable_counted hentry a).bind fun _ => stable_pure _
  · exact (stable_definiteArgument info).bind fun _ => hr.bind fun _ => stable_pure _

/-- An item is stable if the content of its container is, where it may be one. -/
theorem stable_item_of {depth : Nat}
    (h : ∀ d, depth = d + 1 → ∀ major info, Stable (container (item d) major info)) :
    Stable (item depth) := by
  unfold item
  refine stable_byte.bind fun b => ?_
  split
  · exact (stable_definiteArgument _).bind fun _ => stable_pure _
  · exact (stable_definiteArgument _).bind fun _ => stable_pure _
  · exact (stable_string _ _).bind fun _ => stable_pure _
  · exact (stable_string _ _).bind fun bs => (stable_utf8 bs).bind fun _ => stable_pure _
  · exact stable_simple _
  · cases depth with
    | zero => exact stable_failure
    | succ d => exact h d rfl _ _

/-- **Items are read without a look at what follows.** -/
theorem stable_item (depth : Nat) : Stable (item depth) := by
  induction depth with
  | zero => exact stable_item_of nofun
  | succ depth ih =>
    refine stable_item_of fun d hd => ?_
    cases hd
    exact stable_container ih

end Reader

namespace Item

variable {bs more : List UInt8} {i : Item}

theorem decode_eq_some_iff : decode bs = some i ↔ Reader.item nestingLimit bs = some (i, []) := by
  unfold decode
  split
  · rename_i j h
    rw [h, Option.some.injEq, Option.some.injEq, Prod.mk.injEq, and_iff_left rfl]
  · rename_i hne
    exact ⟨nofun, fun h => absurd h (hne i)⟩

/-- An item with bytes behind it is refused. -/
theorem decode_append (h : decode bs = some i) (hmore : more ≠ []) :
    decode (bs ++ more) = none := by
  have hitem := Reader.stable_item _ (decode_eq_some_iff.mp h) more
  cases hdecode : decode (bs ++ more) with
  | none => rfl
  | some j =>
    cases hitem.symm.trans (decode_eq_some_iff.mp hdecode)
    exact absurd rfl hmore

/-- The beginning of an item is refused. -/
theorem decode_prefix (h : decode (bs ++ more) = some i) (hmore : more ≠ []) :
    decode bs = none := by
  cases hdecode : decode bs with
  | none => rfl
  | some j =>
    rw [decode_append hdecode hmore] at h
    exact nomatch h

end Item

end SortedRewriting.Cbor
