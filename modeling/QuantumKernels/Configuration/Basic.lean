import QuantumKernels.Accelerator.Config
/-!
The configuration of a workbench, and how variables of the environment change it. Of a variable's
name the part behind the opening counts; where it names an option or a device, letters are made
small and underlines become dashes.
-/

namespace QuantumKernels

inductive LogFormat where
  | console
  | json
deriving DecidableEq, Repr

/-- What is set for every remote accelerator. -/
structure RemoteDefaults where
  timeoutSeconds : Nat := 60
  maxAttempts : Nat := 1
  backoffMillis : Nat := 500
deriving DecidableEq, Repr

structure Configuration where
  /-- where plugins are looked for -/
  root : Option String := none
  logLevel : String := "info"
  logFormat : LogFormat := .console
  remote : RemoteDefaults := {}
  /-- offered to all that take options -/
  options : Options := ∅
  /-- by the names the accelerators are registered under -/
  accelerators : Dictionary DeviceConfig := ∅
deriving Repr

/-- Why a configuration is refused. -/
inductive ConfigurationFault where
  | unreadable
  | logFormat (text : String)
  | badVariable (name value : String) (cause : Misread)
  | noTimeout
  | noAttempts
deriving DecidableEq, Repr

/-- How the names of the variables that count begin. -/
def Configuration.opening : String := "QPIPE_"

def ConfigurationFault.message : ConfigurationFault → String
  | unreadable => "Configuration error: invalid YAML"
  | logFormat text =>
    s!"Configuration error: unknown log format '{text}', expected 'console' or 'json'"
  | badVariable name value cause =>
    s!"Configuration error: {Configuration.opening}{name}='{value}': {cause.message}"
  | noTimeout => "Configuration error: remote.timeout_seconds must be positive"
  | noAttempts => "Configuration error: remote.max_attempts must be at least 1"

namespace LogFormat

def keyword : LogFormat → String
  | console => "console"
  | json => "json"

def ofKeyword? (s : String) : Option LogFormat := [console, json].find? fun f => f.keyword == s

/-- The format of that name, in any case of letters and between blanks. -/
def read (s : String) : Except ConfigurationFault LogFormat :=
  let name := Text.lowerAscii (Text.trim s)
  match ofKeyword? name with
  | some f => .ok f
  | none => .error (.logFormat name)

end LogFormat

namespace RemoteDefaults

/-- The settings under the keys that remote accelerators read. -/
def entries (r : RemoteDefaults) : List (String × Json) := [
  ("timeout-seconds", .ofNat r.timeoutSeconds),
  ("max-attempts", .ofNat r.maxAttempts),
  ("backoff-millis", .ofNat r.backoffMillis)]

end RemoteDefaults

namespace Configuration

def validate (c : Configuration) : Except ConfigurationFault Unit :=
  if c.remote.timeoutSeconds = 0 then .error .noTimeout
  else if c.remote.maxAttempts = 0 then .error .noAttempts
  else .ok ()

/-- The name that the end of a variable's name stands for. -/
def plainName (s : String) : String := (Text.lowerAscii s).map fun c => if c = '_' then '-' else c

def readNumber (name value : String) (bits : Nat) : Except ConfigurationFault Nat :=
  (Options.natural bits (Text.trimChars value.toList)).mapError (.badVariable name value)

/-- Changes the entry of a device, a new one if there is none. -/
def withDevice (c : Configuration) (name : String) (f : DeviceConfig → DeviceConfig) : Configuration :=
  { c with accelerators := c.accelerators.alter name fun d => f (d.getD { name }) }

/-- Takes in a variable, given the part of its name that counts. -/
def set (c : Configuration) (name value : String) : Except ConfigurationFault Configuration :=
  match name with
  | "PLUGIN_ROOT" => .ok { c with root := some value }
  | "LOG_LEVEL" => .ok { c with logLevel := value }
  | "LOG_FORMAT" => do return { c with logFormat := ← LogFormat.read value }
  | "REMOTE_TIMEOUT" => do
    return { c with remote := { c.remote with timeoutSeconds := ← readNumber name value 64 } }
  | "REMOTE_MAX_ATTEMPTS" => do
    return { c with remote := { c.remote with maxAttempts := ← readNumber name value 32 } }
  | "REMOTE_BACKOFF_MILLIS" => do
    return { c with remote := { c.remote with backoffMillis := ← readNumber name value 64 } }
  | _ =>
    match Text.afterOpening "OPTION_" name, Text.afterOpening "TOKEN_" name,
      Text.afterOpening "ENDPOINT_" name with
    | some key, _, _ => .ok { c with options := c.options.insert (plainName key) value }
    | none, some device, _ => .ok (c.withDevice (plainName device) fun d => { d with token := some value })
    | none, none, some device =>
      .ok (c.withDevice (plainName device) fun d => { d with endpoint := some value })
    | none, none, none => .ok c

/-- Takes in the variables of the environment in order; the first bad value decides. -/
def applyEnvironment (c : Configuration) (settings : List (String × String)) :
    Except ConfigurationFault Configuration :=
  settings.foldlM (fun c (name, value) =>
    match Text.afterOpening opening name with
    | some name => c.set name value
    | none => .ok c) c

/-- What an accelerator is configured with: its own entry, and under the keys missing there what is
set for remote ones, if it is one. -/
def deviceConfig (c : Configuration) (name : String) (remote : Bool) : DeviceConfig :=
  let d := (c.accelerators.get? name).getD { name }
  if remote then
    { d with extra := c.remote.entries.foldl (fun extra (k, v) =>
        if extra.contains k then extra else extra.insert k v) d.extra }
  else d

def toJson (c : Configuration) : Json :=
  .record [
    ("plugins", .record [("root_path", c.root.elim .null .text)]),
    ("logging", .record [("level", .text c.logLevel), ("format", .text c.logFormat.keyword)]),
    ("remote", .record [
      ("timeout_seconds", .ofNat c.remote.timeoutSeconds),
      ("max_attempts", .ofNat c.remote.maxAttempts),
      ("backoff_millis", .ofNat c.remote.backoffMillis)]),
    ("options", .record (c.options.map Json.text).entries),
    ("accelerators", .record (c.accelerators.map DeviceConfig.toJson).entries)]

end Configuration

end QuantumKernels
