import QuantumKernels.Configuration.Basic
import QuantumKernels.Yaml.Value
/-!
Configurations from YAML texts. Every field may be left out; fields that are not known are passed
over, except that those of an accelerator are its further settings.
-/

namespace QuantumKernels

open Yaml

/-- A field, or what stands for it when it is left out. -/
def fieldOr {α : Type} (f : String → Option Node) (name : String) (item : Node → Option α) (default : α) :
    Option α :=
  match f name with
  | some n => item n
  | none => some default

/-- Fields that are not known are the further settings. -/
def DeviceConfig.ofNode? (n : Node) : Option DeviceConfig := do
  let f ← n.fields? knownFields
  let others := (← n.entries?).filter fun e => !knownFields.contains e.1
  let extra ← others.mapM fun (k, v) => v.toJson?.map fun v => (k, v)
  return {
    name := ← fieldOr f "name" Node.text? ""
    endpoint := ← fieldOr f "endpoint" Node.optionalText? none
    token := ← fieldOr f "token" Node.optionalText? none
    extra := .ofList extra }

def LogFormat.ofNode? (n : Node) : Option LogFormat := n.text?.bind ofKeyword?

def RemoteDefaults.ofNode? (n : Node) : Option RemoteDefaults := do
  let f ← n.fields? ["timeout_seconds", "max_attempts", "backoff_millis"]
  let d : RemoteDefaults := {}
  return {
    timeoutSeconds := ← fieldOr f "timeout_seconds" (Node.natural? (2 ^ 64 - 1)) d.timeoutSeconds
    maxAttempts := ← fieldOr f "max_attempts" (Node.natural? (2 ^ 32 - 1)) d.maxAttempts
    backoffMillis := ← fieldOr f "backoff_millis" (Node.natural? (2 ^ 64 - 1)) d.backoffMillis }

namespace Configuration

def rootOf? (n : Node) : Option (Option String) := do
  fieldOr (← n.fields? ["root_path"]) "root_path" Node.optionalText? none

def loggingOf? (n : Node) : Option (String × LogFormat) := do
  let f ← n.fields? ["level", "format"]
  let c : Configuration := {}
  return (← fieldOr f "level" Node.text? c.logLevel, ← fieldOr f "format" LogFormat.ofNode? c.logFormat)

def ofNode? (n : Node) : Option Configuration := do
  let f ← n.fields? ["plugins", "logging", "remote", "options", "accelerators"]
  let c : Configuration := {}
  let (logLevel, logFormat) ← fieldOr f "logging" loggingOf? (c.logLevel, c.logFormat)
  return {
    root := ← fieldOr f "plugins" rootOf? c.root
    logLevel
    logFormat
    remote := ← fieldOr f "remote" RemoteDefaults.ofNode? c.remote
    options := ← fieldOr f "options" (Node.dictionary? Node.text?) c.options
    accelerators := ← fieldOr f "accelerators" (Node.dictionary? DeviceConfig.ofNode?) c.accelerators }

/-- Accelerators without a name of their own are named by their keys. -/
def nameDevices (c : Configuration) : Configuration :=
  { c with accelerators := .ofList (c.accelerators.entries.map fun (key, d) =>
      (key, if d.name.isEmpty then { d with name := key } else d)) }

/-- The configuration in a text. -/
def ofYaml (text : String) : Except ConfigurationFault Configuration := do
  match (Node.read text).bind ofNode? with
  | none => .error .unreadable
  | some c =>
    let c := c.nameDevices
    c.validate
    return c

end Configuration

end QuantumKernels
