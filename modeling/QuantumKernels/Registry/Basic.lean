import QuantumKernels.Options
import QuantumKernels.Text.Described
/-!
Registries: for each capability its providers in the order they were registered, and beside them
a count for each capability. Objects are held by the registry and reached through handles, so that
everyone with the same handle sees the same object.
-/

namespace QuantumKernels

/-- What a registry has to know about its capabilities. -/
class Capability (κ : Type) where
  /-- the text a capability is shown as -/
  label : κ → String
  /-- the capability of those that take options -/
  options : κ

/-- Objects that may take options. -/
class Configurable (α : Type) where
  specs : α → List OptionSpec
  /-- the object after it took what it recognizes, and whether it took anything -/
  handle : α → Options → α × Bool

/-- A reference to an object. -/
structure Handle where
  index : Nat
deriving DecidableEq, Repr

structure Provider (κ α : Type) where
  capability : κ
  /-- a provider without a name is never found by name -/
  name : Option String
  /-- the object the registry keeps for it -/
  canonical : Handle
  /-- what the objects that lookups make start as; without it lookups give the canonical one -/
  template : Option α := none

structure Registry (κ α : Type) where
  objects : List α := []
  /-- the providers of each capability that has any, in the order they were registered -/
  shelves : List (κ × List (Provider κ α)) := []
  /-- how many providers were registered for each capability, under its label -/
  counts : Dictionary Nat := ∅

variable {κ α : Type}

namespace Provider

def isCloneable (p : Provider κ α) : Bool := p.template.isSome

def describe [Capability κ] (p : Provider κ α) : String :=
  Text.describeRecord "Provider" [
    ("capability", Text.describeText (Capability.label p.capability)),
    ("name", Text.describeOption Text.describeText p.name),
    ("cloneable", if p.isCloneable then "true" else "false")]

end Provider

namespace Registry

/-- Adds an object that nobody else refers to. -/
def allocate (r : Registry κ α) (a : α) : Handle × Registry κ α :=
  (⟨r.objects.length⟩, { r with objects := r.objects ++ [a] })

def object? (r : Registry κ α) (h : Handle) : Option α := r.objects[h.index]?

/-- The object of a handle becomes `a`. -/
def update (r : Registry κ α) (h : Handle) (a : α) : Registry κ α :=
  { r with objects := r.objects.set h.index a }

/-- The providers of all capabilities. -/
def providers (r : Registry κ α) : List (Provider κ α) := r.shelves.flatMap (·.2)

def size (r : Registry κ α) : Nat := r.counts.entries.foldr (fun e n => e.2 + n) 0

section

variable [DecidableEq κ]

/-- Puts a provider last among those of its capability. -/
def shelve (p : Provider κ α) : List (κ × List (Provider κ α)) → List (κ × List (Provider κ α))
  | [] => [(p.capability, [p])]
  | (capability, shelf) :: rest =>
    if capability = p.capability then (capability, shelf ++ [p]) :: rest
    else (capability, shelf) :: shelve p rest

def register [Capability κ] (r : Registry κ α) (p : Provider κ α) : Registry κ α :=
  { r with
    shelves := shelve p r.shelves
    counts := r.counts.alter (Capability.label p.capability) fun n => n.getD 0 + 1 }

/-- Registers a new object that all lookups share. -/
def addShared [Capability κ] (r : Registry κ α) (capability : κ) (name : String) (a : α) :
    Registry κ α :=
  let (canonical, r) := r.allocate a
  r.register { capability, name := some name, canonical }

/-- Registers what every lookup makes a new object of. -/
def addCloneable [Capability κ] (r : Registry κ α) (capability : κ) (name : String) (template : α) :
    Registry κ α :=
  let (canonical, r) := r.allocate template
  r.register { capability, name := some name, canonical, template := some template }

/-- Registers a new object without a name. -/
def addAnonymous [Capability κ] (r : Registry κ α) (capability : κ) (a : α) : Registry κ α :=
  let (canonical, r) := r.allocate a
  r.register { capability, name := none, canonical }

/-- The providers of a capability, in order. -/
def providersOf (r : Registry κ α) (capability : κ) : List (Provider κ α) :=
  (r.shelves.find? fun e => e.1 = capability).elim [] (·.2)

/-- The provider of that name that was registered last. -/
def find? (r : Registry κ α) (capability : κ) (name : String) : Option (Provider κ α) :=
  (r.providersOf capability).findRev? fun p => p.name == some name

def has (r : Registry κ α) (capability : κ) (name : String) : Bool := (r.find? capability name).isSome

/-- The object a provider gives to one lookup. -/
def resolve (r : Registry κ α) (p : Provider κ α) : Handle × Registry κ α :=
  match p.template with
  | some a => r.allocate a
  | none => (p.canonical, r)

def get? (r : Registry κ α) (capability : κ) (name : String) : Option (Handle × Registry κ α) :=
  (r.find? capability name).map r.resolve

def require [Capability κ] (r : Registry κ α) (capability : κ) (name : String) :
    Except RegistryError (Handle × Registry κ α) :=
  match r.get? capability name with
  | some found => .ok found
  | none => .error (.notFound name (Capability.label capability))

/-- One object for each provider of a capability. -/
def services (r : Registry κ α) (capability : κ) : List Handle :=
  (r.providersOf capability).map Provider.canonical

/-- The names of a capability's providers, those without one left out. -/
def ids (r : Registry κ α) (capability : κ) : List String :=
  (r.providersOf capability).filterMap Provider.name

/-- What can be set by options. -/
def optionSpecs [Capability κ] [Configurable α] (r : Registry κ α) : List OptionSpec :=
  ((r.services Capability.options).filterMap r.object?).flatMap Configurable.specs

/-- Offers options to one object. -/
def offer [Configurable α] (options : Options) (r : Registry κ α) (h : Handle) : Registry κ α × Bool :=
  match r.object? h with
  | some a =>
    let (a, handled) := Configurable.handle a options
    (r.update h a, handled)
  | none => (r, false)

/-- Offers options to all that take them, and says whether any took something. -/
def handleOptions [Capability κ] [Configurable α] (r : Registry κ α) (options : Options) :
    Registry κ α × Bool :=
  (r.services Capability.options).foldl (fun (r, handled) h =>
    let (r, took) := r.offer options h
    (r, handled || took)) (r, false)

end

def describe (r : Registry κ α) : String :=
  Text.describeRecord "ServiceRegistry" [
    ("capabilities", Text.describeEntries toString r.counts.entries)]

end Registry

end QuantumKernels
