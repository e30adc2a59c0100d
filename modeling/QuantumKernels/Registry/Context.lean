import QuantumKernels.Registry.Basic
/-!
Contexts: plugins, the registry they fill, and options. Initialization calls every plugin on an
empty registry, which takes effect only if all of them succeed.
-/

namespace QuantumKernels

/-- A bundle of providers. What it does to a registry may depend on how often it was called before;
what it has done stays even if it fails. -/
structure Plugin (κ α : Type) where
  name : String
  description : String := ""
  register : (calls : Nat) → Registry κ α → Except RegistryError Unit × Registry κ α

/-- A plugin that always registers the same. -/
def Plugin.always {κ α : Type} (name description : String) (f : Registry κ α → Registry κ α) :
    Plugin κ α :=
  { name, description, register := fun _ r => (.ok (), f r) }

structure PluginInfo where
  name : String
  description : String
  /-- where the plugin was loaded from; those handed over have no place -/
  libraryPath : Option String := none
deriving DecidableEq, Repr

def PluginInfo.describe (i : PluginInfo) : String :=
  Text.describeRecord "PluginInfo" [
    ("name", Text.describeText i.name),
    ("description", Text.describeText i.description),
    ("library_path", Text.describeOption Text.describeText i.libraryPath)]

/-- A plugin that was handed over, and how often it has been called. -/
structure HeldPlugin (κ α : Type) where
  plugin : Plugin κ α
  calls : Nat := 0

namespace HeldPlugin

variable {κ α : Type}

def info (p : HeldPlugin κ α) : PluginInfo := ⟨p.plugin.name, p.plugin.description, none⟩

/-- Calls the plugin once more. -/
def call (p : HeldPlugin κ α) (r : Registry κ α) :
    Except RegistryError Unit × HeldPlugin κ α × Registry κ α :=
  let (outcome, r) := p.plugin.register p.calls r
  (outcome, { p with calls := p.calls + 1 }, r)

/-- Calls plugins in order, up to the first that fails. -/
def callAll : List (HeldPlugin κ α) → Registry κ α →
    Except RegistryError (Registry κ α) × List (HeldPlugin κ α)
  | [], r => (.ok r, [])
  | p :: rest, r =>
    match p.call r with
    | (.error e, p, _) => (.error e, p :: rest)
    | (.ok (), p, r) =>
      let (outcome, rest) := callAll rest r
      (outcome, p :: rest)

end HeldPlugin

structure Context (κ α : Type) where
  /-- in the order they were handed over -/
  held : List (HeldPlugin κ α) := []
  registry : Registry κ α := {}
  initialized : Bool := false
  root : Option String := none
  options : Options := ∅
  /-- the plugins that are active -/
  active : List PluginInfo := []

namespace Context

variable {κ α : Type}

/-- Hands over a plugin for the next initialization. -/
def withPlugin (c : Context κ α) (p : Plugin κ α) : Context κ α := { c with held := c.held ++ [⟨p, 0⟩] }

/-- Hands over a plugin; once the context is initialized it is called at once, on the registry in
use. A plugin that fails there is not kept. -/
def addPlugin (c : Context κ α) (p : Plugin κ α) : Except RegistryError Unit × Context κ α :=
  if c.initialized then
    match (⟨p, 0⟩ : HeldPlugin κ α).call c.registry with
    | (.error e, _, registry) => (.error e, { c with registry })
    | (.ok (), p, registry) =>
      (.ok (), { c with registry, active := c.active ++ [p.info], held := c.held ++ [p] })
  else (.ok (), c.withPlugin p)

/-- Activates the plugins, once. -/
def activate (c : Context κ α) (root : String) : Except RegistryError Unit × Context κ α :=
  if c.initialized then (.ok (), c)
  else
    match HeldPlugin.callAll c.held {} with
    | (.error e, held) => (.error e, { c with held })
    | (.ok registry, held) =>
      (.ok (), { c with
        held, registry, active := held.map HeldPlugin.info, root := some root, initialized := true })

/-- The registry, which is there after initialization only. -/
def registry? (c : Context κ α) : Except RegistryError (Registry κ α) :=
  if c.initialized then .ok c.registry else .error .notInitialized

/-- The object that a name stands for. -/
def service [DecidableEq κ] [Capability κ] (c : Context κ α) (capability : κ) (name : String) :
    Except RegistryError (Handle × Context κ α) := do
  let (h, registry) ← (← c.registry?).require capability name
  return (h, { c with registry })

def setOption (c : Context κ α) (key value : String) : Context κ α :=
  { c with options := c.options.insert key value }

/-- Removes an option, and gives the value it had. -/
def unsetOption (c : Context κ α) (key : String) : Option String × Context κ α :=
  (c.options.get? key, { c with options := c.options.erase key })

/-- Offers the options to all that take them. -/
def handleOptions [DecidableEq κ] [Capability κ] [Configurable α] (c : Context κ α) :
    Except RegistryError (Bool × Context κ α) := do
  let (registry, handled) := (← c.registry?).handleOptions c.options
  return (handled, { c with registry })

def describeOptions (options : Options) : String :=
  Text.describeRecord "RuntimeOptions" [("values", Text.describeEntries Text.describeText options.entries)]

def describe (c : Context κ α) : String :=
  Text.describeRecord "Context" [
    ("initialized", if c.initialized then "true" else "false"),
    ("root_path", Text.describeOption Text.describePath c.root),
    ("plugins", Text.describeList PluginInfo.describe c.active),
    ("options", describeOptions c.options)] true

end Context

end QuantumKernels
