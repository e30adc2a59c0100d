import QuantumKernels.Json.Reading
import QuantumKernels.Text.Described
import QuantumKernels.Options
/-!
The configuration handed to an accelerator: where it is, the token to show there, and further
settings, which double as options. The token is never written.
-/

namespace QuantumKernels

open Json

structure DeviceConfig where
  name : String := ""
  endpoint : Option String := none
  token : Option String := none
  extra : Dictionary Json := ∅
deriving Repr

/-- A value as an option text: lists are joined by commas; nothing and records have none. -/
def Json.optionText? : Json → Option String
  | .text s => some s
  | .int n => some (toString n)
  | .real x => some (Decimal.Layout.stored.render x)
  | .bool b => some (if b then "true" else "false")
  | .list items => (optionTexts? items).map (Text.joinWith ",")
  | .null | .record _ | .unreadable => none
where
  optionTexts? : List Json → Option (List String)
    | [] => some []
    | v :: rest => match v.optionText?, optionTexts? rest with
      | some s, some l => some (s :: l)
      | _, _ => none

/-- The notation in which a document is described. -/
def Json.describe : Json → String
  | .null | .unreadable => "Null"
  | .bool b => if b then "Bool(true)" else "Bool(false)"
  | .int n => s!"Number({n})"
  | .real x => "Number(" ++ Decimal.Layout.stored.render x ++ ")"
  | .text s => "String(" ++ Text.describeText s ++ ")"
  | .list items => "Array [" ++ ", ".intercalate (describeItems items) ++ "]"
  | .record fields => "Object \x7b" ++ ", ".intercalate (describeFields fields) ++ "\x7d"
where
  describeItems : List Json → List String
    | [] => []
    | v :: rest => v.describe :: describeItems rest
  describeFields : List (String × Json) → List String
    | [] => []
    | (k, v) :: rest => (Text.describeText k ++ ": " ++ v.describe) :: describeFields rest

namespace DeviceConfig

/-- The further settings as options, those left out that have no option text. -/
def options (c : DeviceConfig) : Options := c.extra.filterMap Json.optionText?

/-- Further settings override fields of the same name. -/
def toJson (c : DeviceConfig) : Json :=
  let known := [("name", Json.text c.name)] ++ (c.endpoint.map fun e => ("endpoint", Json.text e)).toList
  .record ((Dictionary.ofList known).insertMany c.extra.entries).entries

def knownFields : List String := ["name", "endpoint", "token"]

/-- Fields that are not known are the further settings. -/
def reading : Reading DeviceConfig
  | nesting + 1, .record fields => do
    let known := fields.filter fun e => knownFields.contains e.1
    let extra := fields.filter fun e => !knownFields.contains e.1
    let extra ← asDictionary asDocument (nesting + 1) (.record extra)
    asRecord knownFields (fun f => do
      return {
        name := ← f.orElse "name" asText ""
        endpoint := ← f.orElse "endpoint" (asOption asText) none
        token := ← f.orElse "token" (asOption asText) none
        extra }) (nesting + 1) (.record known)
  | _, _ => none

def describe (c : DeviceConfig) : String :=
  Text.describeRecord "AcceleratorConfig" [
    ("name", Text.describeText c.name),
    ("endpoint", Text.describeOption Text.describeText c.endpoint),
    ("token", Text.describeText "[REDACTED]"),
    ("extra", Text.describeEntries Json.describe c.extra.entries)]

end DeviceConfig

end QuantumKernels
