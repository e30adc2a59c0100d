import QuantumKernels.Yaml.Node
import QuantumKernels.Decimal.Reading
import QuantumKernels.Dictionary
/-!
Values of nodes. What is wanted decides how a scalar is read: any scalar is a text, only a plain one
a number. Where nothing in particular is wanted, a plain scalar is what it looks like.
-/

namespace QuantumKernels.Yaml

/-- A sign, a zero and more digits: a text, however much it looks like a number. -/
def hasLeadingZero (cs : List Char) : Bool :=
  let digits := if cs.head? = some '-' ∨ cs.head? = some '+' then cs.tail else cs
  1 < digits.length && digits.head? == some '0' && digits.all Char.isDigit

/-- The digits of a natural number in a base. -/
def readDigits? (base : Nat) : List Char → Option Nat
  | [] => none
  | cs => cs.foldlM (fun n c => (Decimal.digitValue? base c).map (base * n + ·)) 0

/-- An unsigned integer in the notations for the bases two, eight, ten and sixteen. -/
def readUnsigned? : List Char → Option Nat
  | '0' :: 'x' :: cs => readDigits? 16 cs
  | '0' :: 'o' :: cs => readDigits? 8 cs
  | '0' :: 'b' :: cs => readDigits? 2 cs
  | cs => if hasLeadingZero cs then none else readDigits? 10 cs

def readInteger? : List Char → Option Int
  | '-' :: cs => (readUnsigned? cs).map fun n => -n
  | '+' :: cs => (readUnsigned? cs).map Int.ofNat
  | cs => (readUnsigned? cs).map Int.ofNat

/-- A real; one that is not finite has to be written with a point in front. -/
def readReal? (cs : List Char) : Option Float :=
  let unsigned := if cs.head? = some '+' then cs.tail else cs
  if [".inf", ".Inf", ".INF"].contains (String.ofList unsigned) then some (1 / 0)
  else if ["-.inf", "-.Inf", "-.INF"].contains (String.ofList cs) then some (-1 / 0)
  else if [".nan", ".NaN", ".NAN"].contains (String.ofList cs) then some (0 / 0)
  else if cs.head? = some '+' ∧ (unsigned.head? = some '+' ∨ unsigned.head? = some '-') then none
  else match Decimal.readReal unsigned with
    | .ok x => if x.isFinite then some x else none
    | .error _ => none

def nulls : List String := ["null", "Null", "NULL", "~"]

def truthValues : List (String × Bool) :=
  [("true", true), ("True", true), ("TRUE", true), ("false", false), ("False", false), ("FALSE", false)]

/-- What a plain scalar looks like. An integer beyond the machine's words that still fits two of
them is none of these. -/
def plainValue (text : String) : Option Json :=
  let chars := text.toList
  if text.isEmpty ∨ nulls.contains text then some .null
  else match truthValues.lookup text, readInteger? chars with
    | some b, _ => some (.bool b)
    | none, some n =>
      if -2 ^ 63 ≤ n ∧ n < 2 ^ 64 then some (.int n)
      else if -2 ^ 127 ≤ n ∧ n < 2 ^ 128 then none
      else some (realOrText text)
    | none, none => if hasLeadingZero chars then some (.text text) else some (realOrText text)
where
  realOrText (text : String) : Json := match readReal? text.toList with
    | some x => if x.isFinite then .real x else .null
    | none => .text text

namespace Node

/-- A scalar as it stands. -/
def text? : Node → Option String
  | scalar s _ => some s
  | _ => none

/-- A text, or nothing where none is written. -/
def optionalText? : Node → Option (Option String)
  | scalar s true => some (if s.isEmpty ∨ nulls.contains s then none else some s)
  | scalar s false => some (some s)
  | _ => none

/-- A plain natural number of at most `limit`. -/
def natural? (limit : Nat) : Node → Option Nat
  | scalar s true =>
    let chars := s.toList
    match readUnsigned? (if chars.head? = some '+' then chars.tail else chars) with
    | some n => if n ≤ limit then some n else none
    | none => none
  | _ => none

/-- The entries of a record with their keys as texts; an empty node is an empty record. -/
def entries? : Node → Option (List (String × Node))
  | record entries => entries.mapM fun e => e.1.text?.map fun k => (k, e.2)
  | scalar "" true => some []
  | _ => none

/-- The fields of a record, each looked up by its name. None of them may be given twice. -/
def fields? (names : List String) (n : Node) : Option (String → Option Node) := do
  let entries ← n.entries?
  if names.all fun name => entries.countP (·.1 == name) ≤ 1 then return fun name => entries.lookup name
  else none

/-- A record as a map; of repeated keys the last counts. -/
def dictionary? {α : Type} (item : Node → Option α) (n : Node) : Option (Dictionary α) := do
  let entries ← (← n.entries?).mapM fun (k, v) => (item v).map fun v => (k, v)
  return .ofList entries

mutual

/-- The document a node is; the keys of its records have to be texts. -/
def toJson? : Node → Option Json
  | scalar s true => plainValue s
  | scalar s false => some (.text s)
  | list items => (itemsToJson? items).map .list
  | record entries => (entriesToJson? entries).map fun l => .record (Dictionary.ofList l).entries

def itemsToJson? : List Node → Option (List Json)
  | [] => some []
  | n :: rest => do return (← n.toJson?) :: (← itemsToJson? rest)

def entriesToJson? : List (Node × Node) → Option (List (String × Json))
  | [] => some []
  | (k, v) :: rest => do
    let .text name ← k.toJson? | none
    return (name, ← v.toJson?) :: (← entriesToJson? rest)

end

end Node

end QuantumKernels.Yaml
