import SortedRewriting.Proofs.Digest.Layout
import SortedRewriting.Theory.Digest

/-!
# Layouts that say where they end

A layout is self-delimiting when bytes that begin with an element determine that element and the
bytes behind it (`Bytes.SelfDelimiting`). Elements that are written one behind the other can then be
read back. What is read back is a view of the element, and the lengths that a layout writes with 64
bits have to fit: both come with the layout.

* `Bytes.SelfDelimiting.append`: one layout behind another.
* `Bytes.SelfDelimiting.payloadList`: a list behind its length.
* **`Digest.message_eq_iff`**: a message determines its domain and its payload.
-/

namespace SortedRewriting

namespace Bytes

variable {α β γ δ : Type} {layout : α → List UInt8} {ok : α → Prop} {view : α → β}

/-- Bytes that begin with an element determine what is viewed of it, and the bytes behind it. -/
def SelfDelimiting (layout : α → List UInt8) (ok : α → Prop) (view : α → β) : Prop :=
  ∀ a b rest rest', ok a → ok b → layout a ++ rest = layout b ++ rest' → view a = view b ∧ rest = rest'

/-- Elements of one layout have one view. -/
theorem SelfDelimiting.view_eq (h : SelfDelimiting layout ok view) {a b : α} (ha : ok a) (hb : ok b)
    (heq : layout a = layout b) : view a = view b :=
  (h a b [] [] ha hb (by rw [heq])).1

/-- Layouts of one length are self-delimiting. -/
theorem selfDelimiting_of_length {n : Nat} (hlength : ∀ a, (layout a).length = n)
    (hview : ∀ a b, ok a → ok b → layout a = layout b → view a = view b) :
    SelfDelimiting layout ok view := by
  intro a b rest rest' ha hb h
  obtain ⟨heq, hrest⟩ := List.append_inj h (by rw [hlength, hlength])
  exact ⟨hview a b ha hb heq, hrest⟩

/-- A layout of one part of an element. -/
theorem SelfDelimiting.comap (h : SelfDelimiting layout ok view) (part : γ → α) :
    SelfDelimiting (fun c => layout (part c)) (fun c => ok (part c)) fun c => view (part c) :=
  fun a b rest rest' ha hb heq => h (part a) (part b) rest rest' ha hb heq

/-- Fewer elements, of which more can be told from the view. -/
theorem SelfDelimiting.refine {ok' : α → Prop} {view' : α → γ} (h : SelfDelimiting layout ok view)
    (hok : ∀ a, ok' a → ok a) (hview : ∀ a b, ok' a → ok' b → view a = view b → view' a = view' b) :
    SelfDelimiting layout ok' view' := by
  intro a b rest rest' ha hb heq
  obtain ⟨hab, hrest⟩ := h a b rest rest' (hok a ha) (hok b hb) heq
  exact ⟨hview a b ha hb hab, hrest⟩

/-- **One layout behind another.** -/
theorem SelfDelimiting.append {layout' : α → List UInt8} {ok' : α → Prop} {view' : α → γ}
    (h : SelfDelimiting layout ok view) (h' : SelfDelimiting layout' ok' view') :
    SelfDelimiting (fun a => layout a ++ layout' a) (fun a => ok a ∧ ok' a)
      fun a => (view a, view' a) := by
  intro a b rest rest' ha hb heq
  rw [List.append_assoc, List.append_assoc] at heq
  obtain ⟨hview, heq⟩ := h a b _ _ ha.1 hb.1 heq
  obtain ⟨hview', hrest⟩ := h' a b rest rest' ha.2 hb.2 heq
  exact ⟨Prod.ext hview hview', hrest⟩

/-! ## Words, texts, lists -/

theorem selfDelimiting_word64 : SelfDelimiting word64 (· < 2 ^ 64) id := by
  refine selfDelimiting_of_length length_word64 fun m n hm hn h => ?_
  have hmod := word64_inj h
  rwa [Nat.mod_eq_of_lt hm, Nat.mod_eq_of_lt hn] at hmod

theorem utf8_injective {s s' : String} (h : utf8 s = utf8 s') : s = s' := by
  have hs := fromUTF8?_utf8 s
  rw [h, fromUTF8?_utf8] at hs
  exact (Option.some.inj hs).symm

theorem selfDelimiting_text : SelfDelimiting text (fun s => (utf8 s).length < 2 ^ 64) id := by
  intro s s' rest rest' hs hs' h
  unfold text at h
  rw [List.append_assoc, List.append_assoc] at h
  obtain ⟨hlength, h⟩ := selfDelimiting_word64 _ _ _ _ hs hs' h
  obtain ⟨hbytes, hrest⟩ := List.append_inj h hlength
  exact ⟨utf8_injective hbytes, hrest⟩

theorem selfDelimiting_digest : SelfDelimiting (fun d : Digest => d.toList) (fun _ => True) id :=
  selfDelimiting_of_length (fun d => d.length_toList) fun _ _ _ _ => Vector.toList_inj.mp

/-- As many elements in one row as in another. -/
theorem SelfDelimiting.flatMap (h : SelfDelimiting layout ok view) {xs ys : List α}
    {rest rest' : List UInt8} (hxs : ∀ x ∈ xs, ok x) (hys : ∀ y ∈ ys, ok y)
    (hlength : xs.length = ys.length) (heq : xs.flatMap layout ++ rest = ys.flatMap layout ++ rest') :
    xs.map view = ys.map view ∧ rest = rest' := by
  induction xs generalizing ys with
  | nil =>
    cases List.length_eq_zero_iff.mp hlength.symm
    exact ⟨rfl, heq⟩
  | cons x xs ih =>
    cases ys with
    | nil => exact absurd hlength nofun
    | cons y ys =>
      obtain ⟨hx, hxs⟩ := List.forall_mem_cons.mp hxs
      obtain ⟨hy, hys⟩ := List.forall_mem_cons.mp hys
      rw [List.flatMap_cons, List.flatMap_cons, List.append_assoc, List.append_assoc] at heq
      obtain ⟨hview, heq⟩ := h x y _ _ hx hy heq
      obtain ⟨hviews, hrest⟩ := ih hxs hys (Nat.succ.inj hlength) heq
      exact ⟨List.cons_eq_cons.mpr ⟨hview, hviews⟩, hrest⟩

/-- **A list behind its length.** -/
theorem SelfDelimiting.payloadList (h : SelfDelimiting layout ok view) :
    SelfDelimiting (Theory.payloadList layout) (fun xs => xs.length < 2 ^ 64 ∧ ∀ x ∈ xs, ok x)
      (·.map view) := by
  intro xs ys rest rest' hxs hys heq
  unfold Theory.payloadList at heq
  rw [List.append_assoc, List.append_assoc] at heq
  obtain ⟨hlength, heq⟩ := selfDelimiting_word64 _ _ _ _ hxs.1 hys.1 heq
  exact h.flatMap hxs.2 hys.2 hlength heq

end Bytes

/-! ## Messages -/

namespace Digest

/-- The names of domains start with different letters. -/
theorem initial_injective {d d' : Domain}
    (h : (Bytes.utf8 d.name).head? = (Bytes.utf8 d'.name).head?) : d = d' := by
  cases d <;> cases d' <;> first | rfl | exact absurd h (by decide +kernel)

theorem head?_name_append (d : Domain) (bytes : List UInt8) :
    (Bytes.utf8 d.name ++ bytes).head? = (Bytes.utf8 d.name).head? := by
  have hne : Bytes.utf8 d.name ≠ [] := by cases d <;> decide +kernel
  rw [List.head?_append, Option.or_of_isSome (List.isSome_head?.mpr hne)]

/-- **A message determines its domain and its payload.** -/
theorem message_eq_iff {d d' : Domain} {payload payload' : List UInt8} :
    message d payload = message d' payload' ↔ d = d' ∧ payload = payload' := by
  constructor
  · intro h
    have hdomain : d = d' := by
      unfold message at h
      simp only [List.append_assoc] at h
      have hname := congrArg List.head? (List.append_cancel_left h)
      rw [head?_name_append, head?_name_append] at hname
      exact initial_injective hname
    subst hdomain
    exact ⟨rfl, message_inj h⟩
  · rintro ⟨rfl, rfl⟩
    rfl

end Digest

end SortedRewriting
