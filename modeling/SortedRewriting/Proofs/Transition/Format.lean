import SortedRewriting.Proofs.Cbor.RoundTrip
import SortedRewriting.Proofs.Lists
import SortedRewriting.Proofs.Tree.Fingerprint
import SortedRewriting.Transition.Format

/-!
# Witnesses survive their bytes

A witness is written as an item, and the item as bytes. What is read back is the witness, and no
beginning of its bytes is a witness, nor are they with more behind them.

* `Cbor.Item.asRecord?_record`, `Cbor.Item.asVariant?_variant`: a record or variant is read back.
* `Witness.ofItem_toItem`: so is a witness, from its item.
* `Witness.Fits`: the numbers and lengths in a witness have at most 64 bits.
* **`Witness.ofBytes_toBytes`**: so is such a witness from its bytes, if no more containers are
  nested in it than are followed, and its bytes are neither cut off nor continued.
-/

namespace SortedRewriting

open Cbor WitnessFormat

/-! ## Views of records, variants and numbers -/

namespace Cbor.Item

variable {names : List String} {name : String} {k : Nat}

/-- A record of two fields is read back. -/
theorem asRecord?_record {a b : String} (hab : a ≠ b) (x y : Item) :
    (record [(a, x), (b, y)]).asRecord? [a, b] = some [x, y] := by
  have ha : nameIndex? [a, b] (.text a) = some (some 0) := by
    show some ([a, b].idxOf? a) = _
    simp [List.idxOf?_cons]
  have hb : nameIndex? [a, b] (.text b) = some (some 1) := by
    show some ([a, b].idxOf? b) = _
    simp [List.idxOf?_cons, hab]
  show (collectFields [a, b] [] [(.text a, x), (.text b, y)] >>= _) = _
  simp only [collectFields, ha, hb]
  rfl

/-- A variant with content is read back, by its number. -/
theorem asVariant?_variant (h : names.idxOf? name = some k) (content : Item) :
    (variant name content).asVariant? names = some (k, some content) := by
  show ((some (names.idxOf? name)) >>= fun r => r >>= fun n => pure (n, some content)) = _
  rw [h]
  rfl

theorem asNat?_unsigned {n bound : Nat} (h : n < bound) : (unsigned n).asNat? bound = some n :=
  if_pos h

theorem word?_toInt (n : Int64) : word? n.toInt = some n := by
  rw [word?, Int64.ofInt_toInt, if_pos rfl]

/-- An integer of 64 bits is read back. -/
theorem asInt64?_ofInt64 (n : Int64) : (ofInt64 n).asInt64? = some n := by
  have hsign : 0 ≤ n ↔ 0 ≤ n.toInt := Int64.le_iff_toInt_le
  unfold ofInt64
  split
  · rename_i h
    show word? (n.toInt.toNat : Nat) = _
    rw [Int.toNat_of_nonneg (hsign.mp h), word?_toInt]
  · rename_i h
    have hneg : 0 ≤ -1 - n.toInt := by
      rw [hsign] at h
      omega
    show word? (-1 - ((-1 - n.toInt).toNat : Nat)) = _
    rw [Int.toNat_of_nonneg hneg, sub_sub_cancel, word?_toInt]

theorem canonical_ofInt64 (n : Int64) : (ofInt64 n).Canonical := by
  have hlt := n.toInt_lt
  have hge := n.le_toInt
  unfold ofInt64
  split
  · exact .unsigned (by omega)
  · exact .negative (by omega)

/-- Records are canonical if their names are short enough and the fields are. -/
theorem canonical_record {fields : List (String × Item)} (hlength : fields.length < 2 ^ 64)
    (hfields : ∀ f ∈ fields, (Bytes.utf8 f.1).length < 2 ^ 64 ∧ f.2.Canonical) :
    (record fields).Canonical := by
  have hmap : (fields.map fun f => (Item.text f.1, f.2)).length = fields.length :=
    List.length_map _
  have h := Canonical.map (hmap.trans_lt hlength)
    (List.forall_mem_map.mpr fun f hf => .text (hfields f hf).1)
    (List.forall_mem_map.mpr fun f hf => (hfields f hf).2)
  rwa [hmap] at h

/-- Records of two fields are canonical, if the names are short enough. -/
theorem canonical_record_pair {a b : String} {x y : Item} (ha : (Bytes.utf8 a).length < 2 ^ 64)
    (hb : (Bytes.utf8 b).length < 2 ^ 64) (hx : x.Canonical) (hy : y.Canonical) :
    (record [(a, x), (b, y)]).Canonical :=
  canonical_record (show 2 < 2 ^ 64 by decide) <| List.forall_mem_cons.mpr
    ⟨⟨ha, hx⟩, List.forall_mem_singleton.mpr ⟨hb, hy⟩⟩

theorem canonical_variant {content : Item} (hname : (Bytes.utf8 name).length < 2 ^ 64)
    (h : content.Canonical) : (variant name content).Canonical :=
  canonical_record (show 1 < 2 ^ 64 by decide) (List.forall_mem_singleton.mpr ⟨hname, h⟩)

theorem nesting_lt_record {fields : List (String × Item)} {f : String × Item} (h : f ∈ fields) :
    f.2.nesting < (record fields).nesting := by
  have hmem : (.text f.1, f.2) ∈ fields.map fun f => (Item.text f.1, f.2) :=
    List.mem_map.mpr ⟨f, h, rfl⟩
  exact Nat.lt_succ_of_le (nestingEntries_le_iff.mp (Nat.le_refl _) _ hmem).2

theorem nesting_lt_record_pair (a b : String) (x y : Item) :
    x.nesting < (record [(a, x), (b, y)]).nesting ∧ y.nesting < (record [(a, x), (b, y)]).nesting :=
  ⟨nesting_lt_record (f := (a, x)) List.mem_cons_self,
    nesting_lt_record (f := (b, y)) (List.mem_cons_of_mem _ List.mem_cons_self)⟩

theorem nesting_lt_variant (name : String) (content : Item) :
    content.nesting < (variant name content).nesting :=
  nesting_lt_record (f := (name, content)) List.mem_cons_self

theorem nesting_lt_array {items : List Item} {i : Item} (h : i ∈ items) :
    i.nesting < (array items).nesting :=
  Nat.lt_succ_of_le (nestingAll_le_iff.mp (Nat.le_refl _) i h)

end Cbor.Item

open Cbor.Item

/-! ## Trees -/

theorem Tree.toItems_eq_map (cs : List Tree) : Tree.toItems cs = cs.map Tree.toItem := by
  induction cs with
  | nil => rfl
  | cons c cs ih => rw [Tree.toItems, ih, List.map_cons]

/-- The fields of a node. -/
def Tree.nodeItem (t : Int64) (cs : List Tree) : Item :=
  .record [("tag", .ofInt64 t), ("children", .array (cs.map Tree.toItem))]

theorem Tree.toItem_node (t : Int64) (cs : List Tree) :
    (Tree.node t cs).toItem = .variant "Node" (Tree.nodeItem t cs) := by
  rw [Tree.toItem, Tree.toItems_eq_map, Tree.nodeItem]

/-- A node is nested deeper than its children. -/
theorem Tree.nesting_toItem_lt {t : Int64} {cs : List Tree} {c : Tree} (h : c ∈ cs) :
    c.toItem.nesting + 1 < (Tree.node t cs).toItem.nesting := by
  have hchild : c.toItem.nesting < (Item.array (cs.map Tree.toItem)).nesting :=
    nesting_lt_array (List.mem_map_of_mem h)
  have hchildren : (Item.array (cs.map Tree.toItem)).nesting < (Tree.nodeItem t cs).nesting :=
    (nesting_lt_record_pair _ _ _ _).2
  have hnode := nesting_lt_variant "Node" (Tree.nodeItem t cs)
  rw [← Tree.toItem_node] at hnode
  omega

/-- A tree is read back from its item. -/
theorem Tree.ofItem_toItem {x : Tree} {n : Nat} (h : x.toItem.nesting < n) :
    Tree.ofItem n x.toItem = some x := by
  obtain ⟨n, rfl⟩ : ∃ k, n = k + 1 := ⟨n - 1, by omega⟩
  induction x generalizing n with
  | vacant => rfl
  | error => rfl
  | node t cs ih =>
    have hchildren : (cs.map Tree.toItem).mapM (Tree.ofItem n) = some cs :=
      mapM_map_eq_some fun c hc => by
        have hlt := Tree.nesting_toItem_lt (t := t) hc
        obtain ⟨n, rfl⟩ : ∃ k, n = k + 1 := ⟨n - 1, by omega⟩
        exact ih c hc n (by omega)
    rw [Tree.toItem_node, Tree.ofItem, asVariant?_variant (k := 0) rfl]
    simp only [Option.bind_eq_bind, Option.bind_some, Tree.nodeItem, nodeFields,
      asRecord?_record (a := "tag") (b := "children") (by decide), asInt64?_ofInt64, asArray?,
      Item.bare, hchildren]
    rfl

theorem Tree.canonical_toItem {x : Tree} (h : x.Counted) : x.toItem.Canonical := by
  induction h with
  | vacant => exact .text (by decide +kernel)
  | error => exact .text (by decide +kernel)
  | @node t cs count children ih =>
    rw [Tree.toItem_node]
    refine canonical_variant (by decide +kernel) (canonical_record_pair (by decide +kernel)
      (by decide +kernel) (canonical_ofInt64 t) (.array ?_ (List.forall_mem_map.mpr ih)))
    rwa [List.length_map]

/-! ## Values -/

/-- The numbers and lengths in a value have at most 64 bits. -/
def Value.Fits : Value → Prop
  | tree x => x.Counted
  | path p => p.length < 2 ^ 64 ∧ ∀ i ∈ p, i < 2 ^ 64
  | rule r => r.rule < 2 ^ 64
  | int _ => True
  | bool _ => True

theorem Direction.ofItem_toItem (d : Direction) : Direction.ofItem d.toItem = some d := by
  cases d <;> rfl

theorem RuleTag.ofItem_toItem {r : RuleTag} (h : r.rule < 2 ^ 64) :
    RuleTag.ofItem r.toItem = some r := by
  have hrule : (Item.unsigned r.rule).asNat? UInt64.size = some r.rule := asNat?_unsigned h
  simp only [RuleTag.ofItem, RuleTag.toItem, ruleFields, Option.bind_eq_bind, Option.bind_some,
    asRecord?_record (a := "rule") (b := "direction") (by decide), hrule, Direction.ofItem_toItem]
  rfl

/-- A value is read back from its item. -/
theorem Value.ofItem_toItem {v : Value} (hv : v.Fits) (hnesting : v.toItem.nesting ≤ nestingLimit) :
    Value.ofItem v.toItem = some v := by
  unfold Value.ofItem
  cases v with
  | tree x =>
    have hlt := Nat.lt_of_lt_of_le (nesting_lt_variant "Ast" x.toItem) hnesting
    rw [Value.toItem, asVariant?_variant (k := 0) rfl]
    simp only [Option.bind_eq_bind, Option.bind_some, Tree.ofItem_toItem hlt]
    rfl
  | path p =>
    have hp : (p.map Item.unsigned).mapM (asNat? UInt64.size) = some p :=
      mapM_map_eq_some fun i hi => asNat?_unsigned (hv.2 i hi)
    rw [Value.toItem, asVariant?_variant (k := 1) rfl]
    simp only [Option.bind_eq_bind, Option.bind_some, asArray?, Item.bare, hp]
    rfl
  | rule r =>
    rw [Value.toItem, asVariant?_variant (k := 2) rfl]
    simp only [Option.bind_eq_bind, Option.bind_some, RuleTag.ofItem_toItem hv]
    rfl
  | int n =>
    rw [Value.toItem, asVariant?_variant (k := 3) rfl]
    simp only [Option.bind_eq_bind, Option.bind_some, asInt64?_ofInt64]
    rfl
  | bool b => rfl

theorem Direction.canonical_toItem (d : Direction) : d.toItem.Canonical := by
  cases d <;> exact .text (by decide +kernel)

theorem Value.canonical_toItem {v : Value} (hv : v.Fits) : v.toItem.Canonical := by
  cases v with
  | tree x => exact canonical_variant (by decide +kernel) (Tree.canonical_toItem hv)
  | path p =>
    refine canonical_variant (by decide +kernel)
      (.array ?_ (List.forall_mem_map.mpr fun i hi => .unsigned (hv.2 i hi)))
    rw [List.length_map]
    exact hv.1
  | rule r =>
    exact canonical_variant (by decide +kernel) (canonical_record_pair (by decide +kernel)
      (by decide +kernel) (.unsigned hv) r.direction.canonical_toItem)
  | int n => exact canonical_variant (by decide +kernel) (canonical_ofInt64 n)
  | bool b => exact canonical_variant (by decide +kernel) (.bool b)

/-! ## Environments -/

/-- The numbers and lengths in an environment have at most 64 bits. -/
def Env.Fits (env : Env) : Prop :=
  env.toList.length < 2 ^ 64 ∧ ∀ e ∈ env.toList, (Bytes.utf8 e.1).length < 2 ^ 64 ∧ e.2.Fits

/-- An environment is made of its entries. -/
theorem Env.ofList_toList (env : Env) : Std.ExtTreeMap.ofList env.toList = env := by
  refine Std.ExtTreeMap.ext_getElem? fun k => ?_
  cases hk : env[k]? with
  | some v =>
    exact Std.ExtTreeMap.getElem?_ofList_of_mem Std.ReflCmp.compare_self
      Std.ExtTreeMap.distinct_keys_toList (Std.ExtTreeMap.mem_toList_iff_getElem?_eq_some.mpr hk)
  | none =>
    refine Std.ExtTreeMap.getElem?_ofList_of_contains_eq_false (Bool.eq_false_iff.mpr fun h => ?_)
    obtain ⟨e, he, rfl⟩ := List.mem_map.mp (List.contains_iff_mem.mp h)
    rw [Std.ExtTreeMap.mem_toList_iff_getElem?_eq_some.mp he] at hk
    exact nomatch hk

/-- The entry of an environment, of the items of its name and its value. -/
def Env.entryOfItem (e : Item × Item) : Option (String × Value) := do
  return (← e.1.asText?, ← Value.ofItem e.2)

theorem Env.asMap?_toItem (env : Env) :
    (Env.toItem env).asMap? = some (env.toList.map fun e => (.text e.1, e.2.toItem)) := by
  show some ((env.toList.map fun e => (e.1, e.2.toItem)).map fun f => (Item.text f.1, f.2)) = _
  rw [List.map_map]
  rfl

/-- An environment is read back from its item. -/
theorem Env.ofItem_toItem {env : Env} (h : Env.Fits env)
    (hnesting : (Env.toItem env).nesting ≤ nestingLimit) :
    Env.ofItem (Env.toItem env) = some env := by
  have hentries : (env.toList.map fun e => (Item.text e.1, e.2.toItem)).mapM Env.entryOfItem =
      some env.toList := by
    refine mapM_map_eq_some fun e he => ?_
    have hlt : e.2.toItem.nesting < (Env.toItem env).nesting :=
      nesting_lt_record (f := (e.1, e.2.toItem)) (List.mem_map.mpr ⟨e, he, rfl⟩)
    have hvalue := Value.ofItem_toItem (h.2 e he).2 (Nat.le_trans (Nat.le_of_lt hlt) hnesting)
    show (some e.1 >>= fun name => Value.ofItem e.2.toItem >>= fun v => some (name, v)) = _
    rw [hvalue]
    rfl
  unfold Env.ofItem
  rw [Env.asMap?_toItem]
  show (List.mapM Env.entryOfItem _ >>= fun entries => some (Std.ExtTreeMap.ofList entries)) = _
  rw [hentries]
  exact congrArg some (Env.ofList_toList env)

theorem Env.canonical_toItem {env : Env} (h : Env.Fits env) : (Env.toItem env).Canonical := by
  refine canonical_record ?_ (List.forall_mem_map.mpr fun e he => ?_)
  · rw [List.length_map]
    exact h.1
  · exact ⟨(h.2 e he).1, Value.canonical_toItem (h.2 e he).2⟩

/-! ## Witnesses -/

/-- The numbers and lengths in a witness have at most 64 bits. -/
structure Witness.Fits (w : Witness) : Prop where
  frames : w.frames.length < 2 ^ 64
  states : ∀ f ∈ w.frames, Env.Fits f.state
  inputs : ∀ f ∈ w.frames, Env.Fits f.inputs

/-- A frame is read back from its item. -/
theorem WitnessFrame.ofItem_toItem {f : WitnessFrame} (hstate : Env.Fits f.state)
    (hinputs : Env.Fits f.inputs) (hnesting : f.toItem.nesting ≤ nestingLimit) :
    WitnessFrame.ofItem f.toItem = some f := by
  obtain ⟨hlt, hlt'⟩ := nesting_lt_record_pair "state" "inputs" (Env.toItem f.state)
    (Env.toItem f.inputs)
  rw [WitnessFrame.toItem] at hnesting
  simp only [WitnessFrame.ofItem, WitnessFrame.toItem, frameFields, Option.bind_eq_bind,
    Option.bind_some, asRecord?_record (a := "state") (b := "inputs") (by decide),
    Env.ofItem_toItem hstate (by omega), Env.ofItem_toItem hinputs (by omega)]
  rfl

theorem WitnessFrame.canonical_toItem {f : WitnessFrame} (hstate : Env.Fits f.state)
    (hinputs : Env.Fits f.inputs) : f.toItem.Canonical :=
  canonical_record_pair (by decide +kernel) (by decide +kernel) (Env.canonical_toItem hstate)
    (Env.canonical_toItem hinputs)

namespace Witness

variable {w : Witness}

/-- A witness is read back from its item, with its version. -/
theorem ofItem_toItem (hw : w.Fits) (hnesting : w.toItem.nesting ≤ nestingLimit) :
    ofItem w.toItem = some (formatVersion, w) := by
  have hframes : (w.frames.map (·.toItem)).mapM WitnessFrame.ofItem = some w.frames :=
    mapM_map_eq_some fun f hf => by
      have hlt : f.toItem.nesting < (Item.array (w.frames.map (·.toItem))).nesting :=
        nesting_lt_array (List.mem_map_of_mem hf)
      have hlt' : (Item.array (w.frames.map (·.toItem))).nesting < w.toItem.nesting :=
        (nesting_lt_record_pair _ _ _ _).2
      exact WitnessFrame.ofItem_toItem (hw.states f hf) (hw.inputs f hf) (by omega)
  have hversion : (Item.unsigned formatVersion).asNat? UInt32.size = some formatVersion :=
    asNat?_unsigned (by decide)
  simp only [ofItem, toItem, witnessFields, Option.bind_eq_bind, Option.bind_some,
    asRecord?_record (a := "format_version") (b := "frames") (by decide), hversion, asArray?,
    Item.bare, hframes]
  rfl

theorem canonical_toItem (hw : w.Fits) : w.toItem.Canonical := by
  have hframes : ∀ f ∈ w.frames, f.toItem.Canonical := fun f hf =>
    WitnessFrame.canonical_toItem (hw.states f hf) (hw.inputs f hf)
  refine canonical_record_pair (by decide +kernel) (by decide +kernel) (.unsigned (by decide))
    (.array ?_ (List.forall_mem_map.mpr hframes))
  rw [List.length_map]
  exact hw.frames

/-- **A witness survives its bytes**, and these cannot be cut off or continued. -/
theorem ofBytes_toBytes (hw : w.Fits) (hnesting : w.toItem.nesting ≤ nestingLimit) :
    ofBytes w.toBytes = .ok w ∧
    (∀ bs, bs <+: w.toBytes → bs ≠ w.toBytes → ofBytes bs = .error .malformed) ∧
    ∀ more, more ≠ [] → ofBytes (w.toBytes ++ more) = .error .malformed := by
  have hdecode : Item.decode w.toBytes = some w.toItem :=
    decode_encode (canonical_toItem hw) hnesting
  refine ⟨?_, ?_, fun more hmore => ?_⟩
  · rw [ofBytes, hdecode, Option.bind_some, ofItem_toItem hw hnesting]
    rfl
  · rintro bs ⟨more, hbs⟩ hne
    have hmore : more ≠ [] := fun h => hne (by rw [← hbs, h, List.append_nil])
    rw [ofBytes, decode_prefix (hbs ▸ hdecode) hmore]
    rfl
  · rw [ofBytes, decode_append hdecode hmore]
    rfl

/-- A frame with values of all types, some at the ends of their ranges. -/
def sample : Witness := ⟨[
  ⟨.ofList [("x", Value.tree (.node (-5) [.vacant, .error])), ("", Value.int (-300))],
    .ofList [("r", Value.rule ⟨2 ^ 64 - 1, .reverse⟩), ("p", Value.path [0, 70000]),
      ("ß", Value.bool true)]⟩]⟩

theorem fits_sample : sample.Fits := by
  refine ⟨by decide, fun f hf => ?_, fun f hf => ?_⟩
  · have htoList : f.state.toList =
        [("", Value.int (-300)), ("x", Value.tree (.node (-5) [.vacant, .error]))] := by
      cases List.mem_singleton.mp hf
      decide +kernel
    have htree : (Tree.node (-5) [.vacant, .error]).Counted := .node (by decide) <|
      List.forall_mem_cons.mpr ⟨.vacant, List.forall_mem_singleton.mpr .error⟩
    rw [Env.Fits, htoList]
    exact ⟨by decide, List.forall_mem_cons.mpr ⟨⟨by decide +kernel, trivial⟩,
      List.forall_mem_singleton.mpr ⟨by decide +kernel, htree⟩⟩⟩
  · have htoList : f.inputs.toList = [("p", Value.path [0, 70000]),
        ("r", Value.rule ⟨2 ^ 64 - 1, .reverse⟩), ("ß", Value.bool true)] := by
      cases List.mem_singleton.mp hf
      decide +kernel
    rw [Env.Fits, htoList]
    refine ⟨by decide, List.forall_mem_cons.mpr ⟨⟨by decide +kernel, by decide, by decide⟩,
      List.forall_mem_cons.mpr ⟨⟨by decide +kernel, ?_⟩,
        List.forall_mem_singleton.mpr ⟨by decide +kernel, trivial⟩⟩⟩⟩
    exact Nat.sub_lt (by decide) Nat.one_pos

/-- The sample survives its bytes, which are no witness without the last one, nor with one more. -/
theorem ofBytes_toBytes_sample : sample.Fits ∧ sample.toItem.nesting = 8 ∧
    ofBytes sample.toBytes = .ok sample ∧
    ofBytes sample.toBytes.dropLast = .error .malformed ∧
    ofBytes (sample.toBytes ++ [0]) = .error .malformed := by
  have hnesting : sample.toItem.nesting = 8 := by decide +kernel
  obtain ⟨hback, hprefix, hmore⟩ := ofBytes_toBytes fits_sample (hnesting ▸ by decide)
  refine ⟨fits_sample, hnesting, hback, hprefix _ (List.dropLast_prefix _) fun h => ?_,
    hmore [0] (by decide)⟩
  have hlength := congrArg List.length h
  have hne : sample.toBytes.length ≠ 0 := by decide +kernel
  rw [List.length_dropLast] at hlength
  omega

end Witness

end SortedRewriting
