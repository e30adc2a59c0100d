import QuantumKernels.Decimal.Layout
/-!
Documents: the values that kernels, buffers and wire formats are stored as, and their written
form. Records keep their fields in the order given, repeated names included.
-/

namespace QuantumKernels

inductive Json where
  | null
  | bool (value : Bool)
  | int (value : Int)
  | real (value : Float)
  | text (value : String)
  | list (items : List Json)
  | record (fields : List (String × Json))
  /-- well formed, but beyond every value: a number out of range, half of a surrogate pair in a text or in a
  name of a record -/
  | unreadable
deriving Inhabited, BEq, Repr

namespace Json

/-- The digits of a code below sixteen. -/
def hexDigit (n : Nat) : Char :=
  if n < 10 then Char.ofNat ('0'.toNat + n) else Char.ofNat ('a'.toNat + (n - 10))

/-- Quotes, backslashes and control characters are escaped; all else stands for itself. -/
def escapeChar (c : Char) : List Char :=
  if c = '"' then ['\\', '"']
  else if c = '\\' then ['\\', '\\']
  else if c = '\x08' then ['\\', 'b']
  else if c = '\x0c' then ['\\', 'f']
  else if c = '\n' then ['\\', 'n']
  else if c = '\r' then ['\\', 'r']
  else if c = '\t' then ['\\', 't']
  else if c.toNat < 0x20 then ['\\', 'u', '0', '0', hexDigit (c.toNat / 16), hexDigit (c.toNat % 16)]
  else [c]

def quoteChars (s : List Char) : List Char := '"' :: s.flatMap escapeChar ++ ['"']

def intChars : Int → List Char
  | .ofNat n => Nat.toDigits 10 n
  | .negSucc n => '-' :: Nat.toDigits 10 (n + 1)

/-- A real that is no finite number has no written form and leaves `null`. -/
def realChars (x : Float) : List Char :=
  if x.isFinite then (Decimal.Layout.stored.render x).toList else "null".toList

/-- What is written before an item: nothing, or a comma after an earlier one. -/
def separator (first : Bool) : List Char := if first then [] else [',']

/-- The written form without blanks. -/
def compactChars : Json → List Char
  | null | unreadable => "null".toList
  | bool b => (if b then "true" else "false").toList
  | int n => intChars n
  | real x => realChars x
  | text s => quoteChars s.toList
  | list items => '[' :: (itemChars true items ++ [']'])
  | record fields => '{' :: (fieldChars true fields ++ ['}'])
where
  itemChars (first : Bool) : List Json → List Char
    | [] => []
    | v :: rest => separator first ++ (v.compactChars ++ itemChars false rest)
  fieldChars (first : Bool) : List (String × Json) → List Char
    | [] => []
    | (k, v) :: rest =>
      separator first ++ (quoteChars k.toList ++ ':' :: (v.compactChars ++ fieldChars false rest))

/-- A line end and two blanks for each level. -/
def lineBreak (level : Nat) : List Char := '\n' :: List.replicate (2 * level) ' '

/-- The written form with a line for each item; empty lists and records stay on one line. -/
def prettyChars (level : Nat) : Json → List Char
  | null | unreadable => "null".toList
  | bool b => (if b then "true" else "false").toList
  | int n => intChars n
  | real x => realChars x
  | text s => quoteChars s.toList
  | list [] => ['[', ']']
  | list (v :: rest) =>
    '[' :: (lineBreak (level + 1) ++ (prettyChars (level + 1) v
      ++ (itemLines (level + 1) rest ++ (lineBreak level ++ [']']))))
  | record [] => ['{', '}']
  | record ((k, v) :: rest) =>
    '{' :: (lineBreak (level + 1) ++ (quoteChars k.toList ++ ':' :: ' ' :: (prettyChars (level + 1) v
      ++ (fieldLines (level + 1) rest ++ (lineBreak level ++ ['}'])))))
where
  itemLines (level : Nat) : List Json → List Char
    | [] => []
    | v :: rest => ',' :: (lineBreak level ++ (prettyChars level v ++ itemLines level rest))
  fieldLines (level : Nat) : List (String × Json) → List Char
    | [] => []
    | (k, v) :: rest =>
      ',' :: (lineBreak level ++ (quoteChars k.toList
        ++ ':' :: ' ' :: (prettyChars level v ++ fieldLines level rest)))

def compact (v : Json) : String := String.ofList v.compactChars

def pretty (v : Json) : String := String.ofList (v.prettyChars 0)

/-- The value of the first field of that name. -/
def field? (name : String) : Json → Option Json
  | record fields => (fields.find? fun e => e.1 == name).map (·.2)
  | _ => none

def ofNat (n : Nat) : Json := int n

def listOf (f : α → Json) (l : List α) : Json := list (l.map f)

def texts (l : List String) : Json := listOf text l

def naturals (l : List Nat) : Json := listOf ofNat l

end Json

end QuantumKernels
