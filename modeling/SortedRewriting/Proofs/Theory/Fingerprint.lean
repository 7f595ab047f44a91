import SortedRewriting.CodeBook
import SortedRewriting.Proofs.Expr.Fingerprint

/-!
# Fingerprints identify what takes part in rewriting

The payload of a theory lists its name, its declarations by symbol and its rules in order, with a
digest for each expression. It covers neither print patterns nor descriptions, and not whether the
theory is elaborated: what it covers is the `content` of the theory.

* `Theory.content_eq_iff`: theories of one content are the same in what they declare and state.
* `Theory.selfDelimiting_payload`: the payload determines the content, without a collision among
  what is hashed for expressions.
* **`Theory.fingerprint_eq_iff`**: theories of one fingerprint have the same content.
* `Theory.SameContent.ofTheory_eq`: they have the same code book.
-/

namespace SortedRewriting.Theory

variable {S T : Theory} {known : List UInt8 → Prop}

/-! ## Content -/

/-- What is covered of a sort constructor: its symbol and its parameters. -/
def sortContent (d : String × SortDecl) : String × List Expr := (d.1, d.2.args)

/-- What is covered of an operator: its symbol, its result sort and its arguments. -/
def opContent (d : String × OpDecl) : String × Expr × List Expr := (d.1, d.2.sort, d.2.args)

/-- What is covered of a rule: its name and its sides. -/
def ruleContent (r : Rule) : String × Expr × Expr := (r.name, r.left, r.right)

/-- What is covered of a theory, declarations by symbol and rules in order. -/
structure Content where
  name : String
  sorts : List (String × List Expr)
  ops : List (String × Expr × List Expr)
  rules : List (String × Expr × Expr)
  deriving DecidableEq

def content (t : Theory) : Content where
  name := t.name
  sorts := t.sorts.toList.map sortContent
  ops := t.ops.toList.map opContent
  rules := t.rules.map ruleContent

/-- The same name, the same sort constructors, the same operators and the same rules in order; they
may differ in print patterns and descriptions. -/
structure SameContent (S T : Theory) : Prop where
  name : S.name = T.name
  sorts : ∀ sym : String, S.sorts[sym]?.map (·.args) = T.sorts[sym]?.map (·.args)
  ops : ∀ sym : String,
    S.ops[sym]?.map (fun d => (d.sort, d.args)) = T.ops[sym]?.map fun d => (d.sort, d.args)
  rules : S.rules.map (fun r => (r.name, r.left, r.right)) =
    T.rules.map fun r => (r.name, r.left, r.right)

/-- Maps agree in a part of their values under each key when they list the same parts. -/
theorem map_toList_eq_iff {α β : Type} (part : α → β) {m m' : Std.ExtTreeMap String α} :
    m.toList.map (fun d => (d.1, part d.2)) = m'.toList.map (fun d => (d.1, part d.2)) ↔
      ∀ key : String, m[key]?.map part = m'[key]?.map part := by
  have hmap : ∀ m : Std.ExtTreeMap String α,
      m.toList.map (fun d => (d.1, part d.2)) = (m.map fun _ => part).toList :=
    fun m => (Std.ExtTreeMap.toList_map (t := m) (f := fun _ => part)).symm
  rw [hmap, hmap, Std.ExtTreeMap.toList_inj]
  constructor
  · intro h key
    have hkey := congrArg (·[key]?) h
    simp only [Std.ExtTreeMap.getElem?_map] at hkey
    exact hkey
  · intro h
    refine Std.ExtTreeMap.ext_getElem? fun key => ?_
    rw [Std.ExtTreeMap.getElem?_map, Std.ExtTreeMap.getElem?_map]
    exact h key

/-- **Theories of one content are the same in what they declare and state.** -/
theorem content_eq_iff : S.content = T.content ↔ SameContent S T := by
  have hsorts : S.sorts.toList.map sortContent = T.sorts.toList.map sortContent ↔
      ∀ sym : String, S.sorts[sym]?.map (·.args) = T.sorts[sym]?.map (·.args) := map_toList_eq_iff _
  have hops : S.ops.toList.map opContent = T.ops.toList.map opContent ↔ ∀ sym : String,
      S.ops[sym]?.map (fun d => (d.sort, d.args)) = T.ops[sym]?.map fun d => (d.sort, d.args) :=
    map_toList_eq_iff fun d : OpDecl => (d.sort, d.args)
  rw [content, content, Content.mk.injEq, hsorts, hops]
  exact ⟨fun h => ⟨h.1, h.2.1, h.2.2.1, h.2.2.2⟩, fun h => ⟨h.name, h.sorts, h.ops, h.rules⟩⟩

/-! ## The payload -/

/-- All messages that are hashed for a theory: those of its expressions, and its own. -/
def messages (t : Theory) : List (List UInt8) :=
  t.patterns.flatMap Expr.messages ++ [Digest.message .theory t.payload]

/-- All lists and texts have lengths below `2 ^ 64`. -/
structure Counted (t : Theory) : Prop where
  name : (Bytes.utf8 t.name).length < 2 ^ 64
  sorts : t.sorts.toList.length < 2 ^ 64 ∧
    ∀ d ∈ t.sorts.toList, (Bytes.utf8 d.1).length < 2 ^ 64 ∧ d.2.args.length < 2 ^ 64
  ops : t.ops.toList.length < 2 ^ 64 ∧
    ∀ d ∈ t.ops.toList, (Bytes.utf8 d.1).length < 2 ^ 64 ∧ d.2.args.length < 2 ^ 64
  rules : t.rules.length < 2 ^ 64 ∧ ∀ r ∈ t.rules, (Bytes.utf8 r.name).length < 2 ^ 64
  patterns : ∀ e ∈ t.patterns, e.Counted

theorem counted_iff {t : Theory} : t.Counted ↔
    (Bytes.utf8 t.name).length < 2 ^ 64 ∧
    (t.sorts.toList.length < 2 ^ 64 ∧
      ∀ d ∈ t.sorts.toList, (Bytes.utf8 d.1).length < 2 ^ 64 ∧ d.2.args.length < 2 ^ 64) ∧
    (t.ops.toList.length < 2 ^ 64 ∧
      ∀ d ∈ t.ops.toList, (Bytes.utf8 d.1).length < 2 ^ 64 ∧ d.2.args.length < 2 ^ 64) ∧
    (t.rules.length < 2 ^ 64 ∧ ∀ r ∈ t.rules, (Bytes.utf8 r.name).length < 2 ^ 64) ∧
    ∀ e ∈ t.patterns, e.Counted :=
  ⟨fun h => ⟨h.name, h.sorts, h.ops, h.rules, h.patterns⟩,
    fun h => ⟨h.1, h.2.1, h.2.2.1, h.2.2.2.1, h.2.2.2.2⟩⟩

instance (t : Theory) : Decidable t.Counted := decidable_of_iff _ counted_iff.symm

/-- Expressions whose messages are known, with lengths that fit. -/
def Known (known : List UInt8 → Prop) (e : Expr) : Prop :=
  e.Counted ∧ ∀ m ∈ e.messages, known m

section

variable (hfree : Sha256.CollisionFree known)
include hfree

/-- An expression is told by its digest. -/
theorem selfDelimiting_exprPayload : Bytes.SelfDelimiting exprPayload (Known known) id :=
  (Bytes.selfDelimiting_digest.comap Expr.digest).refine (fun _ _ => trivial) fun _ _ ha hb h =>
    Expr.eq_of_digest_eq hfree ha.1 hb.1 ha.2 hb.2 h

theorem selfDelimiting_sortPayload : Bytes.SelfDelimiting sortPayload
    (fun d => (Bytes.utf8 d.1).length < 2 ^ 64 ∧ d.2.args.length < 2 ^ 64 ∧
      ∀ e ∈ d.2.args, Known known e) sortContent := by
  have hargs := (selfDelimiting_exprPayload hfree).payloadList
  refine ((Bytes.selfDelimiting_text.comap fun d : String × SortDecl => d.1).append
    (hargs.comap fun d => d.2.args)).refine (fun _ h => h) fun a b _ _ h => ?_
  simpa [sortContent, Prod.ext_iff] using h

theorem selfDelimiting_opPayload : Bytes.SelfDelimiting opPayload
    (fun d => (Bytes.utf8 d.1).length < 2 ^ 64 ∧ d.2.args.length < 2 ^ 64 ∧
      ∀ e ∈ d.2.sort :: d.2.args, Known known e) opContent := by
  have hexpr := selfDelimiting_exprPayload hfree
  refine (((Bytes.selfDelimiting_text.comap fun d : String × OpDecl => d.1).append
    (hexpr.comap fun d => d.2.sort)).append (hexpr.payloadList.comap fun d => d.2.args)).refine
    (fun d h => ?_) fun a b _ _ h => ?_
  · obtain ⟨hsym, hlength, hknown⟩ := h
    obtain ⟨hsort, hargs⟩ := List.forall_mem_cons.mp hknown
    exact ⟨⟨hsym, hsort⟩, hlength, hargs⟩
  · simpa [opContent, Prod.ext_iff, and_assoc] using h

theorem selfDelimiting_rulePayload : Bytes.SelfDelimiting rulePayload
    (fun r => (Bytes.utf8 r.name).length < 2 ^ 64 ∧ Known known r.left ∧ Known known r.right)
    ruleContent := by
  have hexpr := selfDelimiting_exprPayload hfree
  refine (((Bytes.selfDelimiting_text.comap Rule.name).append (hexpr.comap Rule.left)).append
    (hexpr.comap Rule.right)).refine (fun _ h => ⟨⟨h.1, h.2.1⟩, h.2.2⟩) fun a b _ _ h => ?_
  simpa [ruleContent, Prod.ext_iff, and_assoc] using h

/-- **The payload of a theory determines its content.** -/
theorem selfDelimiting_payload : Bytes.SelfDelimiting payload
    (fun t => t.Counted ∧ ∀ m ∈ t.messages, known m) content := by
  have hlayout := (((Bytes.selfDelimiting_text.comap Theory.name).append
    ((selfDelimiting_sortPayload hfree).payloadList.comap fun t => t.sorts.toList)).append
    ((selfDelimiting_opPayload hfree).payloadList.comap fun t => t.ops.toList)).append
    ((selfDelimiting_rulePayload hfree).payloadList.comap Theory.rules)
  refine hlayout.refine ?_ fun a b _ _ h => by simpa [content, Prod.ext_iff, and_assoc] using h
  rintro t ⟨hcounted, hknown⟩
  have hpatterns : ∀ e ∈ t.patterns, Known known e := fun e he =>
    ⟨hcounted.patterns e he, fun m hm =>
      hknown m (List.mem_append_left _ (List.mem_flatMap.mpr ⟨e, he, hm⟩))⟩
  simp only [Theory.patterns, List.mem_append, List.mem_flatMap] at hpatterns
  refine ⟨⟨⟨hcounted.name, hcounted.sorts.1, fun d hd => ?_⟩, hcounted.ops.1, fun d hd => ?_⟩,
    hcounted.rules.1, fun r hr => ?_⟩
  · obtain ⟨hsym, hlength⟩ := hcounted.sorts.2 d hd
    exact ⟨hsym, hlength, fun e he => hpatterns e (.inl (.inl ⟨d, hd, he⟩))⟩
  · obtain ⟨hsym, hlength⟩ := hcounted.ops.2 d hd
    exact ⟨hsym, hlength, fun e he => hpatterns e (.inl (.inr ⟨d, hd, he⟩))⟩
  · have hsides : ∀ e ∈ [r.left, r.right], Known known e := fun e he =>
      hpatterns e (.inr ⟨r, hr, he⟩)
    exact ⟨hcounted.rules.2 r hr, hsides _ (by simp), hsides _ (by simp)⟩

end

/-- A list of parts is laid out as the parts are. -/
theorem payloadList_map {α β : Type} (layout : β → List UInt8) (part : α → β) (xs : List α) :
    payloadList layout (xs.map part) = payloadList (fun a => layout (part a)) xs := by
  rw [payloadList, payloadList, List.length_map, List.flatMap_map]

/-- The payload lays out the content. -/
theorem payload_eq_of_content_eq (h : S.content = T.content) : S.payload = T.payload := by
  have hpayload : ∀ t : Theory, t.payload = Bytes.text t.content.name ++
      payloadList (fun d => Bytes.text d.1 ++ payloadList exprPayload d.2) t.content.sorts ++
      payloadList (fun d => Bytes.text d.1 ++ exprPayload d.2.1 ++ payloadList exprPayload d.2.2)
        t.content.ops ++
      payloadList (fun r => Bytes.text r.1 ++ exprPayload r.2.1 ++ exprPayload r.2.2)
        t.content.rules := by
    intro t
    simp only [content, payloadList_map]
    rfl
  rw [hpayload, hpayload, h]

/-- **Fingerprints identify what takes part in rewriting**, without a collision among what is hashed
for the two theories. -/
theorem fingerprint_eq_iff (hS : S.Counted) (hT : T.Counted)
    (hfree : Sha256.CollisionFree (· ∈ S.messages ++ T.messages)) :
    S.fingerprint = T.fingerprint ↔ SameContent S T := by
  have hS' : ∀ m ∈ S.messages, m ∈ S.messages ++ T.messages := fun _ => List.mem_append_left _
  have hT' : ∀ m ∈ T.messages, m ∈ S.messages ++ T.messages := fun _ => List.mem_append_right _
  have hown : ∀ t : Theory, Digest.message .theory t.payload ∈ t.messages := fun t =>
    List.mem_append_right _ (List.mem_singleton_self _)
  rw [← content_eq_iff]
  constructor
  · intro h
    have hpayload := Digest.payload_eq_of_ofPayload_eq hfree (hS' _ (hown S)) (hT' _ (hown T)) h
    exact (selfDelimiting_payload hfree).view_eq ⟨hS, hS'⟩ ⟨hT, hT'⟩ hpayload
  · intro h
    rw [fingerprint, fingerprint, payload_eq_of_content_eq h]

/-! ## What is computed from the content -/

variable (h : SameContent S T)
include h

theorem SameContent.sorts_eq : S.sorts.toList.map sortContent = T.sorts.toList.map sortContent :=
  congrArg Content.sorts (content_eq_iff.mpr h)

theorem SameContent.ops_eq : S.ops.toList.map opContent = T.ops.toList.map opContent :=
  congrArg Content.ops (content_eq_iff.mpr h)

theorem SameContent.rules_eq : S.rules.map ruleContent = T.rules.map ruleContent :=
  congrArg Content.rules (content_eq_iff.mpr h)

theorem SameContent.maxArity_eq : S.maxArity = T.maxArity := by
  have hsorts := congrArg (List.map (·.2.length)) h.sorts_eq
  have hops := congrArg (List.map (·.2.2.length)) h.ops_eq
  rw [List.map_map, List.map_map] at hsorts hops
  exact congrArg (List.foldl max 1) (congrArg₂ (· ++ ·) hsorts hops)

theorem SameContent.keys_sorts_eq : S.sorts.keys = T.sorts.keys := by
  have hkeys := congrArg (List.map (·.1)) h.sorts_eq
  rw [List.map_map, List.map_map] at hkeys
  rw [← Std.ExtTreeMap.map_fst_toList_eq_keys, ← Std.ExtTreeMap.map_fst_toList_eq_keys]
  exact hkeys

theorem SameContent.keys_ops_eq : S.ops.keys = T.ops.keys := by
  have hkeys := congrArg (List.map (·.1)) h.ops_eq
  rw [List.map_map, List.map_map] at hkeys
  rw [← Std.ExtTreeMap.map_fst_toList_eq_keys, ← Std.ExtTreeMap.map_fst_toList_eq_keys]
  exact hkeys

theorem SameContent.patterns_eq : S.patterns = T.patterns := by
  have hsorts := congrArg (List.flatMap (·.2)) h.sorts_eq
  have hops := congrArg (List.flatMap fun d => d.2.1 :: d.2.2) h.ops_eq
  have hrules := congrArg (List.flatMap fun r => [r.2.1, r.2.2]) h.rules_eq
  rw [List.flatMap_map, List.flatMap_map] at hsorts hops hrules
  exact congrArg₂ (· ++ ·) (congrArg₂ (· ++ ·) hsorts hops) hrules

/-- The same is hashed for theories of one content. -/
theorem SameContent.messages_eq : S.messages = T.messages := by
  rw [messages, messages, h.patterns_eq, payload_eq_of_content_eq (content_eq_iff.mpr h)]

theorem SameContent.symbols_eq : S.symbols = T.symbols := by
  rw [symbols, symbols, h.keys_sorts_eq, h.keys_ops_eq, h.patterns_eq]

/-- **Theories of one content have one code book.** -/
theorem SameContent.ofTheory_eq : CodeBook.ofTheory S = CodeBook.ofTheory T := by
  have hnumbering : CodeBook.numbering S = CodeBook.numbering T := by
    rw [CodeBook.numbering, CodeBook.numbering, h.symbols_eq]
  have hstride : CodeBook.strideOf S.rules = CodeBook.strideOf T.rules := by
    let count (r : String × Expr × Expr) : Nat :=
      max (r.2.2.varsOutside r.2.1).length (r.2.1.varsOutside r.2.2).length
    have hcounts := congrArg (List.map count) h.rules_eq
    rw [List.map_map, List.map_map] at hcounts
    exact congrArg (fun counts => counts.foldl max 0 + 1) hcounts
  rw [CodeBook.ofTheory, CodeBook.ofTheory, hnumbering, hstride, h.keys_sorts_eq, h.keys_ops_eq]

end SortedRewriting.Theory
