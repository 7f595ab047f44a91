import SortedRewriting.Cbor.Reader
import SortedRewriting.Transition.Witness

/-!
# Witnesses as binary data

A witness is a record of the format version and the frames; a frame is a record of two maps from
names to values; a value is a variant named for its type. `Witness.toBytes` writes the canonical
form, `Witness.ofBytes` reads any form and then checks the version.
-/

namespace SortedRewriting

open Cbor

/-- Why bytes are no witness. -/
inductive WitnessFormatError where
  | malformed
  | version (found : Nat)
  deriving DecidableEq

/-- The version that is written and read. -/
def Witness.formatVersion : Nat := 1

/-- The text of a refused witness. -/
def WitnessFormatError.message : WitnessFormatError → String
  | malformed => "malformed witness data"
  | version found =>
    s!"witness format version mismatch: loaded {found}, current {Witness.formatVersion}"

/-! ## Names -/

namespace WitnessFormat

def witnessFields : List String := ["format_version", "frames"]

def frameFields : List String := ["state", "inputs"]

def nodeFields : List String := ["tag", "children"]

def ruleFields : List String := ["rule", "direction"]

def valueVariants : List String := ["Ast", "Path", "Rule", "Int", "Bool"]

def treeVariants : List String := ["Node", "None", "Error"]

def directionVariants : List String := ["Forward", "Reverse"]

end WitnessFormat

open WitnessFormat

/-! ## Writing -/

mutual

/-- The item of a tree. -/
def Tree.toItem : Tree → Item
  | .node t cs =>
    .variant "Node" (.record [("tag", .ofInt64 t), ("children", .array (Tree.toItems cs))])
  | .vacant => .text "None"
  | .error => .text "Error"

/-- The items of a list of trees. -/
def Tree.toItems : List Tree → List Item
  | [] => []
  | c :: cs => Tree.toItem c :: Tree.toItems cs

end

/-- The item of a direction. -/
def Direction.toItem : Direction → Item
  | forward => .text "Forward"
  | reverse => .text "Reverse"

/-- The item of a rule tag. -/
def RuleTag.toItem (r : RuleTag) : Item :=
  .record [("rule", .unsigned r.rule), ("direction", r.direction.toItem)]

/-- The item of a value. -/
def Value.toItem : Value → Item
  | tree x => .variant "Ast" x.toItem
  | path p => .variant "Path" (.array (p.map .unsigned))
  | rule r => .variant "Rule" r.toItem
  | int n => .variant "Int" (.ofInt64 n)
  | bool b => .variant "Bool" (.bool b)

/-- The item of an environment, in name order. -/
def Env.toItem (env : Env) : Item :=
  .record (env.toList.map fun (name, v) => (name, v.toItem))

/-- The item of a frame. -/
def WitnessFrame.toItem (f : WitnessFrame) : Item :=
  .record [("state", Env.toItem f.state), ("inputs", Env.toItem f.inputs)]

/-- The item of a witness. -/
def Witness.toItem (w : Witness) : Item :=
  .record [("format_version", .unsigned formatVersion),
    ("frames", .array (w.frames.map (·.toItem)))]

/-- The bytes of a witness. -/
def Witness.toBytes (w : Witness) : List UInt8 := w.toItem.encode

/-! ## Reading -/

/-- The tree of an item, if it is at most `n` nodes deep. -/
def Tree.ofItem : Nat → Item → Option Tree
  | 0, _ => none
  | n + 1, i => do
    match ← i.asVariant? treeVariants with
    | (0, some content) =>
      match ← content.asRecord? nodeFields with
      | [tag, children] =>
        let t ← tag.asInt64?
        let cs ← (← children.asArray?).mapM (Tree.ofItem n)
        return .node t cs
      | _ => none
    | _ =>
      match ← i.asUnitVariant? treeVariants with
      | 1 => return .vacant
      | 2 => return .error
      | _ => none

/-- The direction of an item. -/
def Direction.ofItem (i : Item) : Option Direction := do
  match ← i.asUnitVariant? directionVariants with
  | 0 => return .forward
  | 1 => return .reverse
  | _ => none

/-- The rule tag of an item. -/
def RuleTag.ofItem (i : Item) : Option RuleTag := do
  match ← i.asRecord? ruleFields with
  | [rule, direction] => return ⟨← rule.asNat? UInt64.size, ← Direction.ofItem direction⟩
  | _ => none

/-- The value of an item. -/
def Value.ofItem (i : Item) : Option Value := do
  match ← i.asVariant? valueVariants with
  | (0, some content) => return .tree (← Tree.ofItem nestingLimit content)
  | (1, some content) => return .path (← (← content.asArray?).mapM (Item.asNat? UInt64.size))
  | (2, some content) => return .rule (← RuleTag.ofItem content)
  | (3, some content) => return .int (← content.asInt64?)
  | (4, some content) => return .bool (← content.asBool?)
  | _ => none

/-- The environment of an item; of a name given twice, the last value counts. -/
def Env.ofItem (i : Item) : Option Env := do
  let entries ← (← i.asMap?).mapM fun (name, v) => do
    return (← name.asText?, ← Value.ofItem v)
  return .ofList entries

/-- The frame of an item. -/
def WitnessFrame.ofItem (i : Item) : Option WitnessFrame := do
  match ← i.asRecord? frameFields with
  | [state, inputs] => return ⟨← Env.ofItem state, ← Env.ofItem inputs⟩
  | _ => none

/-- The version and the witness of an item. -/
def Witness.ofItem (i : Item) : Option (Nat × Witness) := do
  match ← i.asRecord? witnessFields with
  | [version, frames] =>
    return (← version.asNat? UInt32.size, ⟨← (← frames.asArray?).mapM WitnessFrame.ofItem⟩)
  | _ => none

/-- The witness of some bytes. -/
def Witness.ofBytes (bs : List UInt8) : Except WitnessFormatError Witness :=
  match (Item.decode bs).bind Witness.ofItem with
  | none => .error .malformed
  | some (version, w) => if version = formatVersion then .ok w else .error (.version version)

end SortedRewriting
