import QuantumKernels.Kernel.Basic
/-!
Positional edits of a kernel. An instruction that enters declares its variables; one that leaves
takes none away. An edit at a position that does not exist is refused and changes nothing.
-/

namespace QuantumKernels

/-- The variables an instruction brings: those of its formulas, or those its block declares. -/
def Instruction.declared : Instruction → List String
  | leaf op => op.vars
  | block h _ => h.vars

/-- Declares the variables that are not declared yet, in order. -/
def Header.declare (h : Header) (names : List String) : Header :=
  { h with vars := Formula.addNames h.vars names }

namespace Kernel

def declare (k : Kernel) (name : String) : Kernel := { k with header := k.header.declare [name] }

def push (k : Kernel) (i : Instruction) : Kernel :=
  ⟨k.header.declare i.declared, k.body ++ [i]⟩

def pushAll (k : Kernel) (l : List Instruction) : Kernel := l.foldl push k

/-- The complaint about a position. -/
def outOfRange (k : Kernel) (i : Nat) : KernelError := .outOfRange i k.size k.name

def instruction (k : Kernel) (i : Nat) : Except KernelError Instruction :=
  match k.body[i]? with
  | some inst => .ok inst
  | none => .error (k.outOfRange i)

/-- Puts an instruction before the one at position `i`, which must exist. -/
def insert (k : Kernel) (i : Nat) (inst : Instruction) : Except KernelError Kernel :=
  if i < k.size then .ok ⟨k.header.declare inst.declared, k.body.insertIdx i inst⟩
  else .error (k.outOfRange i)

/-- Puts an instruction at position `i` and gives the one it takes the place of. -/
def replace (k : Kernel) (i : Nat) (inst : Instruction) : Except KernelError (Instruction × Kernel) :=
  match k.body[i]? with
  | some old => .ok (old, ⟨k.header.declare inst.declared, k.body.set i inst⟩)
  | none => .error (k.outOfRange i)

def remove (k : Kernel) (i : Nat) : Except KernelError (Instruction × Kernel) :=
  match k.body[i]? with
  | some old => .ok (old, { k with body := k.body.eraseIdx i })
  | none => .error (k.outOfRange i)

end Kernel

end QuantumKernels
