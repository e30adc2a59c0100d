import QuantumKernels.Kernel.Edit
import QuantumKernels.Text.Blank
/-!
Folding: every enabled gate of a few self-inverse kinds on two qubits is repeated, which amplifies
its noise. An odd number of copies leaves the ideal circuit as it is.

A kernel is folded by edits, which declare the variables of what they put in. `fold` is what they
come to where these are declared already.
-/

namespace QuantumKernels

/-- Whether a gate is repeated. Names are matched without regard to case. -/
def Operation.isFoldable (op : Operation) : Bool :=
  op.enabled && op.bits.length == 2 && ["CNOT", "CZ", "Swap", "CY"].any (Text.sameIgnoringCase · op.name)

namespace Instruction

/-- The copies of an instruction, at least one; blocks are folded inside. -/
def fold (scale : Nat) : Instruction → List Instruction
  | leaf op => if op.isFoldable then List.replicate (max scale 1) (leaf op) else [leaf op]
  | block h body => [block h (foldOf body)]
where
  foldOf : List Instruction → List Instruction
    | [] => []
    | i :: rest => i.fold scale ++ foldOf rest

end Instruction

def Kernel.fold (scale : Nat) (k : Kernel) : Kernel :=
  { k with body := Instruction.fold.foldOf scale k.body }

namespace Instruction

/-- A block that is folded by edits. -/
def foldInPlace (scale : Nat) : Instruction → Except KernelError Instruction
  | leaf op => .ok (leaf op)
  | block h body => ofKernel <$> foldFrom ⟨h, body⟩ 0 body
where
  /-- Goes through the part of a body that starts at a position, from its end. Edits move nothing in
  front of them, so an instruction is read where it has always stood. -/
  foldFrom (k : Kernel) (position : Nat) : List Instruction → Except KernelError Kernel
    | [] => .ok k
    | i :: rest => do
      let k ← foldFrom k (position + 1) rest
      match ← k.instruction position with
      | leaf op =>
        if op.isFoldable then
          (List.replicate (scale - 1) (leaf op)).foldlM (fun k copy => k.insert position copy) k
        else return k
      | block .. =>
        let (_, k) ← k.replace position (← i.foldInPlace scale)
        return k

end Instruction

def Kernel.foldInPlace (scale : Nat) (k : Kernel) : Except KernelError Kernel :=
  Instruction.foldInPlace.foldFrom scale k 0 k.body

end QuantumKernels
