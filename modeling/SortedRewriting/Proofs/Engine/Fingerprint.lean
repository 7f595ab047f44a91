import SortedRewriting.Proofs.Engine.Compiled
import SortedRewriting.Proofs.Theory.Fingerprint
import SortedRewriting.Proofs.Tree.Fingerprint

/-!
# Engines of theories with one fingerprint rewrite alike

What an engine does to a tree follows from the codes of its theory, from its bounds and from the
sides of the rules in order. All of them follow from what the fingerprint of the theory covers.

* `Engine.applyAt_congr`: rewriting looks at the sides of rules only.
* **`Engine.Compiled.rewrite_eq_of_sameContent`**: engines of equal depth, whose theories have the
  same content, give the same results.
* **`fingerprints_identify`**: fingerprints identify trees, expressions and what takes part in
  rewriting of theories, without a collision of the hash function.
-/

namespace SortedRewriting

namespace Engine

variable {rules rules' : List Rule} {book : CodeBook} {b : Bounds} {theory : Theory} {e e' : Engine}

/-! ## What rewriting looks at -/

/-- A rule without its name and its description. -/
def bare (r : Rule) : Rule := { r with name := "", description := "" }

theorem matched_bare (r : Rule) (dir : Direction) : (bare r).matched dir = r.matched dir := by
  cases dir <;> rfl

theorem produced_bare (r : Rule) (dir : Direction) : (bare r).produced dir = r.produced dir := by
  cases dir <;> rfl

theorem taggedRules_map_bare (rules : List Rule) (b : Bounds) :
    taggedRules (rules.map bare) b = (taggedRules rules b).map fun r => (r.1, bare r.2) := by
  rw [taggedRules, taggedRules, List.map_filterMap]
  refine List.filterMap_congr fun tag _ => ?_
  rw [List.getElem?_map, Option.map_map, Option.map_map]
  rfl

/-- Neither names nor descriptions of rules take part in rewriting. -/
theorem applyAt_map_bare (x : Tree) (tag : RuleTag) (p : Path) (s : Int64) :
    applyAt (rules.map bare) book b x tag p s = applyAt rules book b x tag p s := by
  unfold applyAt applyRules
  rw [taggedRules_map_bare, List.map_map]
  simp only [Function.comp_def, ruleHolds, ruleResult, matched_bare, produced_bare]

/-- **Rewriting looks at the sides of rules only**, in their order. -/
theorem applyAt_congr (h : rules.map Theory.ruleContent = rules'.map Theory.ruleContent) (x : Tree)
    (tag : RuleTag) (p : Path) (s : Int64) :
    applyAt rules book b x tag p s = applyAt rules' book b x tag p s := by
  have hbare := congrArg (List.map fun c : String × Expr × Expr => (⟨"", "", c.2.1, c.2.2⟩ : Rule)) h
  rw [List.map_map, List.map_map] at hbare
  calc applyAt rules book b x tag p s
      = applyAt (rules.map bare) book b x tag p s := (applyAt_map_bare x tag p s).symm
    _ = applyAt (rules'.map bare) book b x tag p s :=
      congrArg (applyAt · book b x tag p s) hbare
    _ = applyAt rules' book b x tag p s := applyAt_map_bare x tag p s

/-- Names that codes are read as do not take part in rewriting. -/
theorem applyAt_of_isOf (h : book.IsOf theory) (x : Tree) (tag : RuleTag) (p : Path) (s : Int64) :
    applyAt rules book b x tag p s = applyAt rules (.ofTheory theory) b x tag p s := by
  obtain ⟨names, rfl⟩ := h
  rfl

/-! ## Engines of the same content -/

/-- Bounds follow from the content of the theory and the depth. -/
theorem Intact.bounds_eq (h : e.Intact) (h' : e'.Intact) (hdepth : e.bounds.depth = e'.bounds.depth)
    (hsame : Theory.SameContent e.theory e'.theory) : e.bounds = e'.bounds := by
  have hext : ∀ b b' : Bounds, b.arity = b'.arity → b.depth = b'.depth →
      b.ruleCount = b'.ruleCount → b = b' := by
    rintro ⟨_, _, _⟩ ⟨_, _, _⟩ rfl rfl rfl
    rfl
  refine hext _ _ ?_ hdepth ?_
  · rw [h.arity_eq, h'.arity_eq, hsame.maxArity_eq]
  · rw [h.ruleCount_eq, h'.ruleCount_eq]
    simpa using congrArg List.length hsame.rules_eq

/-- **Engines of equal depth whose theories have the same content give the same results.** -/
theorem Compiled.rewrite_eq_of_sameContent (he : e.Compiled) (he' : e'.Compiled)
    (hdepth : e.bounds.depth = e'.bounds.depth) (hsame : Theory.SameContent e.theory e'.theory)
    (x : Tree) (tag : RuleTag) (p : Path) (s : Int64) :
    e.rewrite x tag p s = e'.rewrite x tag p s := by
  rw [he.rewrite_eq, he'.rewrite_eq, applyAt_of_isOf he.intact.book, applyAt_of_isOf he'.intact.book,
    hsame.ofTheory_eq, he.intact.bounds_eq he'.intact hdepth hsame, applyAt_congr hsame.rules_eq]

end Engine

/-! ## Fingerprints -/

/-- **Fingerprints identify what they cover**, without a collision among what is hashed: trees,
expressions, and of theories the name, the declarations and the rules in order. Nothing is hashed
in two domains. So engines of equal depth, of theories with one fingerprint, rewrite alike. -/
theorem fingerprints_identify :
    (∀ x y : Tree, x.Counted → y.Counted →
      Sha256.CollisionFree (· ∈ [Digest.message .tree x.payload, Digest.message .tree y.payload]) →
        (x.fingerprint = y.fingerprint ↔ x = y)) ∧
    (∀ a b : Expr, a.Counted → b.Counted → Sha256.CollisionFree (· ∈ a.messages ++ b.messages) →
      (a.digest = b.digest ↔ a = b)) ∧
    (∀ S T : Theory, S.Counted → T.Counted → Sha256.CollisionFree (· ∈ S.messages ++ T.messages) →
      (S.fingerprint = T.fingerprint ↔ S.SameContent T)) ∧
    (∀ domain domain' payload payload', domain ≠ domain' →
      Digest.message domain payload ≠ Digest.message domain' payload') ∧
    ∀ e e' : Engine, e.Compiled → e'.Compiled → e.bounds.depth = e'.bounds.depth →
      e.theory.Counted → e'.theory.Counted →
      Sha256.CollisionFree (· ∈ e.theory.messages ++ e'.theory.messages) →
      e.theory.fingerprint = e'.theory.fingerprint →
        ∀ x tag p s, e.rewrite x tag p s = e'.rewrite x tag p s := by
  refine ⟨fun x y hx _ hfree => ?_, fun a b => Expr.digest_eq_iff, fun S T => Theory.fingerprint_eq_iff,
    fun d d' p p' hne h => hne (Digest.message_eq_iff.mp h).1, ?_⟩
  · exact ⟨Tree.eq_of_fingerprint_eq hfree hx (by simp) (by simp), congrArg Tree.fingerprint⟩
  · intro e e' he he' hdepth hcounted hcounted' hfree h
    exact he.rewrite_eq_of_sameContent he' hdepth
      ((Theory.fingerprint_eq_iff hcounted hcounted' hfree).mp h)

/-! ## Two theories with one fingerprint -/

namespace Constants

/-- Two constants that may stand for each other. The print pattern of their sort and all
descriptions are left open. -/
def theory (pattern description : String) : Except DeclarationError Theory :=
  Theory.declare "constants" [("T", ⟨pattern, [], description⟩)]
    [("a", ⟨"a", .node .sort "T" [], [], description⟩),
      ("b", ⟨"b", .node .sort "T" [], [], description⟩)]
    [⟨"swap", description, .node .app "a" [], .node .app "b" []⟩]

/-- Engines of one depth, of different theories with the same content, without a collision. -/
def alike (e e' : Engine) : Bool := decide (e.theory ≠ e'.theory ∧
  e.theory.content = e'.theory.content ∧ e.bounds.depth = e'.bounds.depth ∧
  e.theory.Counted ∧ e'.theory.Counted ∧ (e.theory.messages.eraseDups.map Sha256.hash).Nodup)

/-- Other print patterns and descriptions make another theory with the same content. -/
theorem exists_alike : ∃ e e' : Engine, e.Compiled ∧ e'.Compiled ∧ alike e e' = true := by
  obtain ⟨e, he, h⟩ := Engine.exists_compiled "constants" _ _ _ 1
    (P := fun e => (theory "thing" "of things").toOption.any (fun t =>
      t.patterns.all (fun a => decide a.WellFormed) &&
        (Engine.compile t 1).toOption.any (fun e' => decide (alike e e' = true))) = true)
    (show (theory "T" "").toOption.any _ = true by decide +kernel)
  obtain ⟨e', he', h⟩ := Engine.exists_compiled "constants" _ _ _ 1
    (P := fun e' => alike e e' = true) h
  exact ⟨e, e', he, he', h⟩

end Constants

open Pairs in
/-- Two theories differ in a print pattern and in descriptions, and their engines rewrite alike.
Variables of different names have different digests, and their trees different fingerprints. -/
theorem fingerprints_identify_constants : ∃ e e' : Engine, e.Compiled ∧ e'.Compiled ∧
    e.theory ≠ e'.theory ∧ e.theory.fingerprint = e'.theory.fingerprint ∧
    e.theory.SameContent e'.theory ∧
    (∀ x tag p s, e.rewrite x tag p s = e'.rewrite x tag p s) ∧
    (thingVar "x").digest ≠ (thingVar "y").digest ∧
    (varTree 3).fingerprint ≠ (varTree 4).fingerprint ∧
    Digest.message .tree [0] ≠ Digest.message .theory [0] := by
  obtain ⟨e, e', he, he', h⟩ := Constants.exists_alike
  obtain ⟨hne, hcontent, hdepth, hcounted, hcounted', hnodup⟩ := of_decide_eq_true h
  have hsame := Theory.content_eq_iff.mp hcontent
  have hfree : Sha256.CollisionFree (· ∈ e.theory.messages ++ e'.theory.messages) := by
    simpa [← hsame.messages_eq] using Sha256.collisionFree_of_eraseDups hnodup
  obtain ⟨htrees, hexprs, htheories, hdomains, hengines⟩ := fingerprints_identify
  have hfingerprint := (htheories _ _ hcounted hcounted' hfree).mpr hsame
  have htree : ∀ c : Int64, (varTree c).Counted := fun c =>
    Tree.counted_build (by simpa using Tree.counted_build (by simp) (by decide)) (by decide)
  refine ⟨e, e', he, he', hne, hfingerprint, hsame,
    hengines e e' he he' hdepth hcounted hcounted' hfree hfingerprint, ?_, ?_,
    hdomains _ _ _ _ (by decide)⟩
  · exact (hexprs _ _ (by decide +kernel) (by decide +kernel)
      (Sha256.collisionFree_of_eraseDups (by decide +kernel))).not.mpr (by decide +kernel)
  · exact (htrees _ _ (htree 3) (htree 4)
      (Sha256.collisionFree_of_eraseDups (by decide +kernel))).not.mpr (by decide +kernel)

end SortedRewriting
