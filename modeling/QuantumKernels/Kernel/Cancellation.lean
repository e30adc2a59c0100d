import QuantumKernels.Kernel.Edit
/-!
Cancellation of self-inverse gates. A sweep goes through a kernel from front to back and keeps its
enabled instructions; a gate that meets its own copy, with nothing kept in between on any of its
bits, disappears together with it. Blocks are swept inside and stand in the way on the bits they
use.
-/

namespace QuantumKernels

namespace Operation

/-- A gate without parameters that undoes itself. -/
def isSelfInverse (op : Operation) : Bool :=
  op.parameters.isEmpty && ["H", "X", "Y", "Z", "CNOT", "CY", "CZ", "CH", "Swap"].contains op.name

/-- A gate for which the order of its bits makes no difference. -/
def isSymmetric (op : Operation) : Bool := ["CZ", "Swap"].contains op.name

/-- Whether two operations have the same bits, in any order for symmetric gates. -/
def sameBits (a b : Operation) : Bool :=
  if a.isSymmetric then a.bits.isPerm b.bits else a.bits == b.bits

/-- Whether the two undo each other. -/
def cancels (a b : Operation) : Bool := a.name == b.name && a.isSelfInverse && a.sameBits b

end Operation

/-- Whether an instruction uses one of these bits. -/
def Instruction.touches (bits : List Nat) (i : Instruction) : Bool :=
  i.bits.any bits.contains

/-- Takes out the partner of a gate: the latest instruction on any of its bits, if the two cancel.
The instructions stand latest first. -/
def withoutPartner (op : Operation) : List Instruction → Option (List Instruction)
  | [] => none
  | i :: earlier =>
    if i.touches op.bits then
      match i with
      | .leaf p => if p.cancels op then some earlier else none
      | .block .. => none
    else (withoutPartner op earlier).map (i :: ·)

/-- A kernel with this header and these instructions, whose variables it declares. -/
def Header.assemble (h : Header) (body : List Instruction) : Kernel := Kernel.pushAll ⟨h, []⟩ body

namespace Instruction

/-- Adds an instruction to those kept so far, latest first. Beside them stands the number of
instructions that disappear. -/
def sweepInto (kept : List Instruction) : Instruction → List Instruction × Nat
  | leaf op =>
    if op.enabled then
      match (if op.isSelfInverse then withoutPartner op kept else none) with
      | some kept => (kept, 2)
      | none => (leaf op :: kept, 0)
    else (kept, 1)
  | block h body =>
    if h.enabled then
      let (inner, removed) := sweepAll [] body
      (ofKernel (h.assemble inner.reverse) :: kept, removed)
    else (kept, 1)
where
  sweepAll (kept : List Instruction) : List Instruction → List Instruction × Nat
    | [] => (kept, 0)
    | i :: rest =>
      let (kept, removed) := sweepInto kept i
      let (kept, removed') := sweepAll kept rest
      (kept, removed + removed')

end Instruction

namespace Kernel

/-- One sweep, and the number of instructions that have disappeared. -/
def sweep (k : Kernel) : Kernel × Nat :=
  let (kept, removed) := Instruction.sweepInto.sweepAll [] k.body
  (k.header.assemble kept.reverse, removed)

/-- Sweeps until one of them removes nothing, at most so many times. -/
def optimize : (tries : Nat) → Kernel → Kernel
  | 0, k => k
  | tries + 1, k =>
    let (swept, removed) := k.sweep
    if removed = 0 then swept else optimize tries swept

end Kernel

end QuantumKernels
