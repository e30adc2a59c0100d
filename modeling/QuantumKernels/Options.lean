import QuantumKernels.Dictionary
import QuantumKernels.Decimal.Reading
import QuantumKernels.Json.Basic
/-!
Runtime options: texts by key, and the typed values read from them.
-/

namespace QuantumKernels

abbrev Options := Dictionary String

/-- A key that a component understands. -/
structure OptionSpec where
  key : String
  description : String
deriving DecidableEq, Repr

def OptionSpec.toJson (s : OptionSpec) : Json :=
  .record [("key", .text s.key), ("description", .text s.description)]

/-- What can go wrong with services, plugins and options. -/
inductive RegistryError where
  | notFound (name capability : String)
  | notInitialized
  | plugin (text : String)
  | invalidOption (key text : String)
deriving DecidableEq, Repr

def RegistryError.message : RegistryError → String
  | notFound name capability => s!"Service '{name}' not found for capability {capability}"
  | notInitialized => "Registry not initialized; call Context::initialize first"
  | plugin text => s!"Plugin error: {text}"
  | invalidOption key text => s!"Invalid option '{key}': {text}"

namespace Options

/-- How a value is read from the characters of a text. -/
abbrev Reader (α : Type) := List Char → Except Misread α

/-- A natural number that fits `bits` bits. -/
def natural (bits : Nat) : Reader Nat := Decimal.readNatural 10 (2 ^ bits - 1)

def integer (bits : Nat) : Reader Int := Decimal.readInteger bits

def real : Reader Float := Decimal.readReal

def truthValue : Reader Bool := fun cs => readTruthValue (String.ofList cs)

/-- The value of an option, if it is set; blanks around the text do not count. -/
def read (options : Options) (key : String) (reader : Reader α) : Except RegistryError (Option α) :=
  match options.get? key with
  | none => .ok none
  | some raw =>
    match reader (Text.trimChars raw.toList) with
    | .ok v => .ok (some v)
    | .error e => .error (.invalidOption key s!"'{raw}': {e.message}")

/-- The items of a text between commas, trimmed, empty ones left out. -/
def items (raw : String) : List String :=
  ((Text.splitChars ',' raw.toList).map Text.trimChars).filterMap fun cs =>
    if cs.isEmpty then none else some (String.ofList cs)

def readItem (key : String) (reader : Reader α) (item : String) : Except RegistryError α :=
  match reader item.toList with
  | .ok v => .ok v
  | .error e => .error (.invalidOption key s!"'{item}': {e.message}")

/-- The values of a list option, if it is set. -/
def readList (options : Options) (key : String) (reader : Reader α) :
    Except RegistryError (Option (List α)) :=
  match options.get? key with
  | none => .ok none
  | some raw => ((items raw).mapM (readItem key reader)).map some

end Options

end QuantumKernels
