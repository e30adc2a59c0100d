import QuantumKernels.Kernel.Basic
/-!
Enabled parts of a kernel: the view that leaves disabled instructions out, and the tree with
everything enabled again.
-/

namespace QuantumKernels

namespace Instruction

/-- The instruction without its disabled parts; nothing if it is disabled itself. -/
def view : Instruction → List Instruction
  | leaf op => if op.enabled then [leaf op] else []
  | block h body => if h.enabled then [block h (viewOf body)] else []
where
  viewOf : List Instruction → List Instruction
    | [] => []
    | i :: rest => i.view ++ viewOf rest

def enableAll : Instruction → Instruction
  | leaf op => leaf { op with enabled := true }
  | block h body => block { h with enabled := true } (enableAllOf body)
where
  enableAllOf : List Instruction → List Instruction
    | [] => []
    | i :: rest => i.enableAll :: enableAllOf rest

end Instruction

/-- A copy that holds the enabled instructions only. -/
def Kernel.view (k : Kernel) : Kernel := { k with body := Instruction.view.viewOf k.body }

def Kernel.enableAll (k : Kernel) : Kernel :=
  ⟨{ k.header with enabled := true }, Instruction.enableAll.enableAllOf k.body⟩

end QuantumKernels
