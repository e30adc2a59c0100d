import QuantumKernels.Kernel.Relabel
import QuantumKernels.Kernel.View
import QuantumKernels.Kernel.Stored
/-!
Programs: kernels in order. Names need not differ.
-/

namespace QuantumKernels

structure Program where
  kernels : List Kernel := []
deriving DecidableEq, Repr

namespace Program

open Json

def push (p : Program) (k : Kernel) : Program := ⟨p.kernels ++ [k]⟩

def size (p : Program) : Nat := p.kernels.length

def kernel (p : Program) (i : Nat) : Except KernelError Kernel :=
  match p.kernels[i]? with
  | some k => .ok k
  | none => .error (.outOfRange i p.size "ir")

/-- The first kernel of that name. -/
def find? (p : Program) (name : String) : Option Kernel := p.kernels.find? fun k => k.name == name

/-- Relabels kernels from the front, up to the first one that refuses; beside the outcome stand all
kernels as they then are. -/
def mapBits (map : List Nat) : List Kernel → Except KernelError Unit × List Kernel
  | [] => (.ok (), [])
  | k :: rest =>
    match k.mapBits map with
    | .error e => (.error e, k :: rest)
    | .ok k' =>
      let (outcome, rest') := mapBits map rest
      (outcome, k' :: rest')

def toJson (p : Program) : Json := .record [("kernels", listOf Kernel.toJson p.kernels)]

def reading : Reading Program :=
  asRecord ["kernels"] fun f => do return ⟨← f.required "kernels" (asList Kernel.reading)⟩

def persist (p : Program) : String := p.toJson.pretty

def load (s : String) : Except KernelError Program :=
  match readAs reading s with
  | some p => .ok p
  | none => .error .malformed

end Program

end QuantumKernels
