import SortedRewriting.Config.FlatJson
import SortedRewriting.Transition.Checker

/-!
# Search settings

`SearchConfig` bounds a search: the depth of paths, the number of steps, the number of states, and
where a witness is written. Settings come from a JSON object with named members, or from an array of
the values in order; what is missing takes its default.
-/

namespace SortedRewriting

/-- The bounds of a search and the place for its witness. -/
structure SearchConfig where
  depth : Nat := 2
  maxSteps : Nat := 7
  maxStates : Nat := Checker.defaultMaxStates
  witnessPath? : Option String := none
  deriving DecidableEq

/-- The bound that is zero and must not be. -/
inductive ConfigFault where
  | depth
  | maxStates
  deriving DecidableEq

/-- Why settings are refused. -/
inductive ConfigError where
  | invalid (fault : ConfigFault)
  | notRead
  | syntaxError
  deriving DecidableEq

/-- The text of refused settings. -/
def ConfigError.message : ConfigError → String
  | invalid .depth => "invalid configuration: depth must be at least 1"
  | invalid .maxStates => "invalid configuration: max_states must be at least 1"
  | notRead => "cannot read configuration: no text"
  | syntaxError => "cannot parse configuration: unexpected content"

namespace SearchConfig

/-- Paths need a depth and a search needs a state. -/
def validate (c : SearchConfig) : Except ConfigError Unit :=
  if c.depth = 0 then .error (.invalid .depth)
  else if c.maxStates = 0 then .error (.invalid .maxStates)
  else .ok ()

/-! ## Reading -/

/-- The names of the settings, in order. -/
def settingNames : List String := ["depth", "max_steps", "max_states", "witness_path"]

/-- A number of 64 bits. -/
def asNumber : FlatJson.Scalar → Option Nat
  | .number n => if n < UInt64.size then some n else none
  | _ => none

/-- The setting of a name, given a value. -/
def set (c : SearchConfig) (name : String) (value : FlatJson.Scalar) : Option SearchConfig :=
  match name, value with
  | "depth", v => (asNumber v).map fun n => { c with depth := n }
  | "max_steps", v => (asNumber v).map fun n => { c with maxSteps := n }
  | "max_states", v => (asNumber v).map fun n => { c with maxStates := n }
  | "witness_path", .null => some { c with witnessPath? := none }
  | "witness_path", .string s => some { c with witnessPath? := some s }
  | _, _ => none

/-- The settings by name, each at most once. -/
def setAll (c : SearchConfig) : List (String × FlatJson.Scalar) → Option SearchConfig
  | [] => some c
  | (name, value) :: rest => do
    if rest.any (·.1 == name) then none
    else (← c.set name value).setAll rest

/-- The settings in a document. -/
def ofDocument? : FlatJson.Document → Option SearchConfig
  | .object members => setAll {} members
  | .array items =>
    if settingNames.length < items.length then none else setAll {} (settingNames.zip items)

/-- The settings in a text, validated. -/
def ofText (text : String) : Except ConfigError SearchConfig :=
  match (FlatJson.parse text).bind ofDocument? with
  | none => .error .syntaxError
  | some c => do
    c.validate
    return c

/-- The settings in a file, which has to be there and to hold UTF-8. -/
def ofFile (content? : Option (List UInt8)) : Except ConfigError SearchConfig :=
  match content?.bind fun bs => String.fromUTF8? bs.toByteArray with
  | none => .error .notRead
  | some text => ofText text

/-! ## Writing -/

/-- All settings in order. -/
def toDocument (c : SearchConfig) : FlatJson.Document :=
  .object [("depth", .number c.depth), ("max_steps", .number c.maxSteps),
    ("max_states", .number c.maxStates),
    ("witness_path", match c.witnessPath? with
      | none => .null
      | some path => .string path)]

/-- The settings as text. -/
def text (c : SearchConfig) : String := c.toDocument.text

end SearchConfig

end SortedRewriting
