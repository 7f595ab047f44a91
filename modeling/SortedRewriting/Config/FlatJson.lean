/-!
# Flat JSON

The JSON of a settings file: one object or array whose members are whole numbers, strings or
`null`. The syntax is strict: no leading zeros, no bare control characters in strings, no unpaired
surrogates, no trailing comma, and nothing behind the closing bracket.
-/

namespace SortedRewriting.FlatJson

/-- A member of a flat object or array. -/
inductive Scalar where
  | number (n : Nat)
  | string (s : String)
  | null
  deriving DecidableEq

/-- A flat object, its members in the order of the text, or a flat array. -/
inductive Document where
  | object (members : List (String × Scalar))
  | array (items : List Scalar)
  deriving DecidableEq

/-! ## Reading -/

def isBlank (c : Char) : Bool := c = ' ' || c = '\n' || c = '\t' || c = '\r'

def skipBlanks (cs : List Char) : List Char := cs.dropWhile isBlank

/-- The value of a digit in base 16. -/
def hexDigit? (c : Char) : Option Nat :=
  if '0' ≤ c ∧ c ≤ '9' then some (c.toNat - '0'.toNat)
  else if 'a' ≤ c ∧ c ≤ 'f' then some (c.toNat - 'a'.toNat + 10)
  else if 'A' ≤ c ∧ c ≤ 'F' then some (c.toNat - 'A'.toNat + 10)
  else none

/-- The number of four digits in base 16. -/
def hexNumber? (a b c d : Char) : Option Nat := do
  return 4096 * (← hexDigit? a) + 256 * (← hexDigit? b) + 16 * (← hexDigit? c) + (← hexDigit? d)

/-- The character behind a backslash, if it stands for one. -/
def escape? : Char → Option Char
  | '\x22' => some '\x22'
  | '\\' => some '\\'
  | '/' => some '/'
  | 'b' => some '\x08'
  | 'f' => some '\x0c'
  | 'n' => some '\n'
  | 'r' => some '\r'
  | 't' => some '\t'
  | _ => none

def isHighSurrogate (n : Nat) : Bool := 0xd800 ≤ n && n < 0xdc00

def isLowSurrogate (n : Nat) : Bool := 0xdc00 ≤ n && n < 0xe000

/-- Puts a character in front of what a reader found. -/
def consChar (c : Char) : Option (List Char × List Char) → Option (List Char × List Char)
  | some (s, rest) => some (c :: s, rest)
  | none => none

/-- The characters of a string up to its closing quote, and what follows. -/
def stringBody : List Char → Option (List Char × List Char)
  | [] => none
  | '\x22' :: rest => some ([], rest)
  | '\\' :: 'u' :: a :: b :: c :: d :: rest =>
    match hexNumber? a b c d with
    | none => none
    | some n =>
      if isHighSurrogate n then
        match rest with
        | '\\' :: 'u' :: a' :: b' :: c' :: d' :: rest =>
          match hexNumber? a' b' c' d' with
          | none => none
          | some m =>
            if isLowSurrogate m then
              consChar (Char.ofNat (0x10000 + 1024 * (n - 0xd800) + (m - 0xdc00))) (stringBody rest)
            else none
        | _ => none
      else if isLowSurrogate n then none
      else consChar (Char.ofNat n) (stringBody rest)
  | '\\' :: c :: rest =>
    match escape? c with
    | none => none
    | some c => consChar c (stringBody rest)
  | c :: rest => if c < ' ' then none else consChar c (stringBody rest)

/-- A string behind its opening quote. -/
def quoted : List Char → Option (String × List Char)
  | '\x22' :: rest => (stringBody rest).map fun (s, rest) => (String.ofList s, rest)
  | _ => none

/-- The number that a list of decimal digits spells. -/
def decimal (digits : List Char) : Nat :=
  digits.foldl (fun n c => 10 * n + (c.toNat - '0'.toNat)) 0

/-- A member and what follows it. -/
def scalar : List Char → Option (Scalar × List Char)
  | 'n' :: 'u' :: 'l' :: 'l' :: rest => some (.null, rest)
  | '0' :: rest => some (.number 0, rest)
  | c :: rest =>
    if c.isDigit then
      some (.number (decimal ((c :: rest).takeWhile Char.isDigit)), (c :: rest).dropWhile Char.isDigit)
    else (quoted (c :: rest)).map fun (s, rest) => (.string s, rest)
  | [] => none

/-- A name, a colon and a member, with blanks in front of each. -/
def namedMember (cs : List Char) : Option ((String × Scalar) × List Char) := do
  let (name, rest) ← quoted (skipBlanks cs)
  match skipBlanks rest with
  | ':' :: rest => do
    let (value, rest) ← scalar (skipBlanks rest)
    return ((name, value), rest)
  | _ => none

/-- A member with blanks in front of it. -/
def item (cs : List Char) : Option (Scalar × List Char) := scalar (skipBlanks cs)

/-- Members separated by commas, up to the closing bracket; at most `n`, and one at least. -/
def members {α : Type} (member : List Char → Option (α × List Char)) (close : Char) :
    Nat → List Char → Option (List α × List Char)
  | 0, _ => none
  | n + 1, cs => do
    let (a, rest) ← member cs
    match skipBlanks rest with
    | ',' :: rest => do
      let (as, rest) ← members member close n rest
      return (a :: as, rest)
    | c :: rest => if c = close then return ([a], rest) else none
    | [] => none

/-- Any number of members up to the closing bracket. -/
def bracketed {α : Type} (member : List Char → Option (α × List Char)) (close : Char)
    (cs : List Char) : Option (List α × List Char) :=
  match skipBlanks cs with
  | c :: rest => if c = close then some ([], rest) else members member close cs.length (c :: rest)
  | [] => none

/-- The document of a text, with blanks around it. -/
def parse (text : String) : Option Document := do
  let (document, rest) ← match skipBlanks text.toList with
    | '\x7b' :: rest => (bracketed namedMember '\x7d' rest).map fun (ms, rest) =>
      (Document.object ms, rest)
    | '[' :: rest => (bracketed item ']' rest).map fun (is, rest) => (Document.array is, rest)
    | _ => none
  if (skipBlanks rest).isEmpty then return document else none

/-! ## Writing -/

/-- A character inside a string: quote, backslash and control characters are escaped, with a
letter where there is one. -/
def escaped (c : Char) : List Char :=
  if c = '\x22' then ['\\', '\x22']
  else if c = '\\' then ['\\', '\\']
  else if c = '\n' then ['\\', 'n']
  else if c = '\r' then ['\\', 'r']
  else if c = '\t' then ['\\', 't']
  else if c = '\x08' then ['\\', 'b']
  else if c = '\x0c' then ['\\', 'f']
  else if c < ' ' then
    ['\\', 'u', '0', '0', Nat.digitChar (c.toNat / 16), Nat.digitChar (c.toNat % 16)]
  else [c]

/-- A text in quotes. -/
def quote (s : String) : String := "\"" ++ String.ofList (s.toList.flatMap escaped) ++ "\""

/-- The text of a member. -/
def Scalar.text : Scalar → String
  | number n => toString n
  | string s => quote s
  | null => "null"

/-- The shortest text of a document. -/
def Document.text : Document → String
  | object members =>
    "\x7b" ++ String.intercalate "," (members.map fun (name, v) => quote name ++ ":" ++ v.text)
      ++ "\x7d"
  | array items => "[" ++ String.intercalate "," (items.map (·.text)) ++ "]"

end SortedRewriting.FlatJson
