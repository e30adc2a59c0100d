import QuantumKernels.Kernel.Basic
/-!
Relabelling of bits. A map gives the new bit at the position of the old one; it is applied to all
bits of a tree or, if it leaves one out, to none.
-/

namespace QuantumKernels

/-- The first bit that a map leaves out. -/
def Operation.unmapped? (map : List Nat) (op : Operation) : Option Nat :=
  op.bits.find? fun b => map.length ≤ b

def Operation.relabel (map : List Nat) (op : Operation) : Operation :=
  { op with bits := op.bits.map fun b => map.getD b b }

def Header.relabel (map : List Nat) (h : Header) : Header := { h with bitMap := map }

namespace Instruction

/-- The first bit, from left to right, that a map leaves out. -/
def unmapped? (map : List Nat) : Instruction → Option Nat
  | leaf op => op.unmapped? map
  | block _ body => unmappedOf body
where
  unmappedOf : List Instruction → Option Nat
    | [] => none
    | i :: rest => (i.unmapped? map).or (unmappedOf rest)

/-- Replaces each bit that the map covers and notes the map in every block. -/
def relabel (map : List Nat) : Instruction → Instruction
  | leaf op => leaf (op.relabel map)
  | block h body => block (h.relabel map) (relabelOf body)
where
  relabelOf : List Instruction → List Instruction
    | [] => []
    | i :: rest => i.relabel map :: relabelOf rest

end Instruction

/-- Annealing problems have no bit order to map; a gate kernel is relabelled if the map covers it,
annealing blocks in it included. -/
def Kernel.mapBits (map : List Nat) (k : Kernel) : Except KernelError Kernel :=
  match k.header.kind with
  | .anneal => .error (.unsupported "map_bits" k.header.kind.describe)
  | .gate =>
    match Instruction.unmapped?.unmappedOf map k.body with
    | some bit => .error (.unmappedBit bit map.length)
    | none => .ok ⟨k.header.relabel map, Instruction.relabel.relabelOf map k.body⟩

def Instruction.mapBits (map : List Nat) : Instruction → Except KernelError Instruction
  | leaf op =>
    match op.unmapped? map with
    | some bit => .error (.unmappedBit bit map.length)
    | none => .ok (leaf (op.relabel map))
  | block h body => (Kernel.mapBits map ⟨h, body⟩).map Instruction.ofKernel

end QuantumKernels
