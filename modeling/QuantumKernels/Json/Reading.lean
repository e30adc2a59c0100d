import QuantumKernels.Json.Reader
import QuantumKernels.Dictionary
/-!
Typed values from documents. A reading is given the number of lists and records that may still be
entered; what a reading passes over is neither entered nor looked at.
-/

namespace QuantumKernels.Json

/-- A value from a document, with the nesting that is left. -/
abbrev Reading (α : Type) := Nat → Json → Option α

/-- The deepest nesting of lists and records that is read. -/
def nestingLimit : Nat := 127

def asText : Reading String
  | _, .text s => some s
  | _, _ => none

def asBool : Reading Bool
  | _, .bool b => some b
  | _, _ => none

/-- A natural number of at most `limit`. -/
def asNatural (limit : Nat) : Reading Nat
  | _, .int (.ofNat n) => if n ≤ limit then some n else none
  | _, _ => none

/-- A natural number that fits a machine word. -/
def asWord : Reading Nat := asNatural wordLimit

def asInt64 : Reading Int64
  | _, .int n => if -2 ^ 63 ≤ n ∧ n < 2 ^ 63 then some (Int64.ofInt n) else none
  | _, _ => none

/-- A real, or an integer rounded to one. -/
def asReal : Reading Float
  | _, .real x => some x
  | _, .int (.ofNat n) => some (Float.ofNat n)
  | _, .int (.negSucc n) => some (-Float.ofNat (n + 1))
  | _, _ => none

/-- `null` is no value. -/
def asOption (item : Reading α) : Reading (Option α)
  | _, .null => some none
  | nesting, v => (item nesting v).map some

def asList (item : Reading α) : Reading (List α)
  | nesting + 1, .list items => items.mapM (item nesting)
  | _, _ => none

/-- A record as a map; of repeated names the last counts. -/
def asDictionary (item : Reading α) : Reading (Dictionary α)
  | nesting + 1, .record fields =>
    (fields.mapM fun e => (item nesting e.2).map fun v => (e.1, v)).map Dictionary.ofList
  | _, _ => none

/-- A pair written as a list of two. -/
def asPair (first : Reading α) (second : Reading β) : Reading (α × β)
  | nesting + 1, .list [a, b] => do return (← first nesting a, ← second nesting b)
  | _, _ => none

/-- A whole document: every part readable, names in order, repeated ones merged. -/
def asDocument : Reading Json
  | nesting + 1, .list items => (items.mapM (asDocument nesting)).map .list
  | nesting + 1, .record fields =>
    (fields.mapM fun e => (asDocument nesting e.2).map fun v => (e.1, v)).map fun l =>
      .record (Dictionary.ofList l).entries
  | _, .list _ | _, .record _ | _, .unreadable => none
  | _, v => some v

/-- Whether every part of a document is readable, within the nesting given. -/
def isReadable : Nat → Json → Bool
  | nesting + 1, .list items => items.all (isReadable nesting)
  | nesting + 1, .record fields => fields.all fun e => isReadable nesting e.2
  | _, .list _ | _, .record _ | _, .unreadable => false
  | _, _ => true

/-- A reading that first takes the whole value in, the parts it passes over included. -/
def whole (item : Reading α) : Reading α := fun nesting v =>
  if isReadable nesting v then item nesting v else none

/-- The fields of a record, each looked up by its name. -/
structure Fields where
  nesting : Nat
  value? : String → Option Json

/-- Enters a record with these field names. No field may be given twice, others are passed over; a
list stands for the values of the leading fields. -/
def asRecord (names : List String) (body : Fields → Option α) : Reading α
  | nesting + 1, .record fields =>
    if names.all fun name => fields.countP (·.1 == name) ≤ 1 then
      body ⟨nesting, fun name => (fields.find? (·.1 == name)).map (·.2)⟩
    else none
  | nesting + 1, .list items =>
    if items.length ≤ names.length then body ⟨nesting, fun name => (names.zip items).lookup name⟩ else none
  | _, _ => none

def Fields.required (f : Fields) (name : String) (item : Reading α) : Option α :=
  (f.value? name).bind (item f.nesting)

def Fields.orElse (f : Fields) (name : String) (item : Reading α) (default : α) : Option α :=
  match f.value? name with
  | some v => item f.nesting v
  | none => some default

/-- A value tagged by its kind: a record of one field. -/
def asVariant (cases : List (String × Reading α)) : Reading α
  | nesting + 1, .record [(name, v)] => (cases.lookup name).bind fun item => item nesting v
  | _, _ => none

/-- A name out of a few; a record of the name and `null` stands for it. -/
def asNameOf (cases : List (String × α)) : Reading α
  | _, .text name => cases.lookup name
  | _ + 1, .record [(name, .null)] => cases.lookup name
  | _, _ => none

/-- A value under `value` whose reading the name under `type` decides. -/
def asTagged (cases : List (String × Reading α)) : Reading α :=
  asRecord ["type", "value"] fun f => do
    let item ← f.required "type" (asNameOf cases)
    f.required "value" item

/-- The value of a text that is a document of the right shape. -/
def readAs (item : Reading α) (s : String) : Option α := (read s).bind (item nestingLimit)

end QuantumKernels.Json
