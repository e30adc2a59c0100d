import QuantumKernels.Kernel.Operation
/-!
Kernels: named trees of instructions. An instruction is an operation or a block, which is a kernel
used as one instruction. Disabled instructions stay in the tree but take no part in what the kernel
does: `operations` lists the operations that do.
-/

namespace QuantumKernels

/-- The family of a kernel: gates in causal order, or an annealing problem without order. -/
inductive Kind where
  | gate
  | anneal
deriving DecidableEq, Inhabited, Repr

def Kind.describe : Kind → String
  | gate => "gate function"
  | anneal => "annealing function"

/-- All of a kernel but its instructions. -/
structure Header where
  name : String
  tag : Option String := none
  kind : Kind := .gate
  /-- the declared variables, each once -/
  vars : List String := []
  /-- the last bit map applied, empty if there was none -/
  bitMap : List Nat := []
  options : Dictionary Parameter := ∅
  enabled : Bool := true
deriving DecidableEq, Inhabited, Repr

inductive Instruction where
  | leaf (op : Operation)
  | block (header : Header) (body : List Instruction)
deriving Inhabited, Repr

mutual

def Instruction.decEq : (a b : Instruction) → Decidable (a = b)
  | .leaf a, .leaf b => decidable_of_iff (a = b) (by simp)
  | .block h body, .block h' body' =>
    match (inferInstance : Decidable (h = h')), Instruction.decEqBody body body' with
    | isTrue e, isTrue e' => isTrue (by rw [e, e'])
    | isFalse ne, _ => isFalse fun e => ne (by cases e; rfl)
    | _, isFalse ne => isFalse fun e => ne (by cases e; rfl)
  | .leaf _, .block .. => isFalse nofun
  | .block .., .leaf _ => isFalse nofun

def Instruction.decEqBody : (a b : List Instruction) → Decidable (a = b)
  | [], [] => isTrue rfl
  | i :: a, j :: b =>
    match Instruction.decEq i j, Instruction.decEqBody a b with
    | isTrue e, isTrue e' => isTrue (by rw [e, e'])
    | isFalse ne, _ => isFalse fun e => ne (by cases e; rfl)
    | _, isFalse ne => isFalse fun e => ne (by cases e; rfl)
  | [], _ :: _ => isFalse nofun
  | _ :: _, [] => isFalse nofun

end

instance : DecidableEq Instruction := Instruction.decEq

structure Kernel where
  header : Header
  body : List Instruction := []
deriving DecidableEq, Inhabited, Repr

namespace Instruction

def name : Instruction → String
  | leaf op => op.name
  | block h _ => h.name

def isBlock : Instruction → Bool
  | leaf _ => false
  | block .. => true

def isEnabled : Instruction → Bool
  | leaf op => op.enabled
  | block h _ => h.enabled

def setEnabled (on : Bool) : Instruction → Instruction
  | leaf op => leaf { op with enabled := on }
  | block h body => block { h with enabled := on } body

def ofKernel (k : Kernel) : Instruction := block k.header k.body

def kernel? : Instruction → Option Kernel
  | leaf _ => none
  | block h body => some ⟨h, body⟩

def operation? : Instruction → Option Operation
  | leaf op => some op
  | block .. => none

/-- The operations below an instruction, whether enabled or not. -/
def leaves : Instruction → List Operation
  | leaf op => [op]
  | block _ body => leavesOf body
where
  leavesOf : List Instruction → List Operation
    | [] => []
    | i :: rest => i.leaves ++ leavesOf rest

/-- The operations that take part: those with no disabled instruction at or above them. -/
def operations : Instruction → List Operation
  | leaf op => if op.enabled then [op] else []
  | block h body => if h.enabled then operationsOf body else []
where
  operationsOf : List Instruction → List Operation
    | [] => []
    | i :: rest => i.operations ++ operationsOf rest

/-- The instruction and all below it, each before its contents. -/
def preorder : Instruction → List Instruction
  | leaf op => [leaf op]
  | block h body => block h body :: preorderOf body
where
  preorderOf : List Instruction → List Instruction
    | [] => []
    | i :: rest => i.preorder ++ preorderOf rest

/-- An operation as it is, a block as its operations, each with a line end after it. -/
def print : Instruction → String
  | leaf op => op.print
  | block _ body => printOf body
where
  printOf : List Instruction → String
    | [] => ""
    | i :: rest => i.print ++ (if i.isBlock then "" else "\n") ++ printOf rest

end Instruction

/-- Puts a number in its place in an ascending list, unless it is there. -/
def insertAscending (n : Nat) : List Nat → List Nat
  | [] => [n]
  | m :: rest => if n < m then n :: m :: rest else if n = m then m :: rest else m :: insertAscending n rest

/-- The numbers of a list in ascending order, each once. -/
def ascending (l : List Nat) : List Nat := l.foldl (fun sorted n => insertAscending n sorted) []

/-- The least number above every number of a list. -/
def widthOf (l : List Nat) : Nat := l.foldl (fun w n => max w (n + 1)) 0

namespace Instruction

/-- The bits of an operation as they stand; those below a block ascending, each once. -/
def bits : Instruction → List Nat
  | leaf op => op.bits
  | block _ body => ascending ((leaves.leavesOf body).flatMap Operation.bits)

/-- A block is analog if an operation below it is. -/
def isAnalog (i : Instruction) : Bool := i.leaves.any Operation.analog

end Instruction

namespace Kernel

/-- The empty kernel of that name. -/
def named (name : String) (kind : Kind := .gate) : Kernel := ⟨{ name, kind }, []⟩

def name (k : Kernel) : String := k.header.name

def size (k : Kernel) : Nat := k.body.length

def leaves (k : Kernel) : List Operation := Instruction.leaves.leavesOf k.body

/-- The operations that take part, in program order. Whether the kernel itself is enabled counts
only where it is used as a block. -/
def operations (k : Kernel) : List Operation := Instruction.operations.operationsOf k.body

def preorder (k : Kernel) : List Instruction := Instruction.preorder.preorderOf k.body

def print (k : Kernel) : String := Instruction.print.printOf k.body

/-- The bits in use anywhere in the tree, ascending, each once. -/
def bits (k : Kernel) : List Nat := ascending (k.leaves.flatMap Operation.bits)

/-- The width of the register the kernel runs on. -/
def width (k : Kernel) : Nat := widthOf (k.leaves.flatMap Operation.bits)

def isAnalog (k : Kernel) : Bool := k.leaves.any Operation.analog

def setTag (k : Kernel) (tag : String) : Kernel := { k with header := { k.header with tag := some tag } }

def setOption (k : Kernel) (key : String) (p : Parameter) : Kernel :=
  { k with header := { k.header with options := k.header.options.insert key p } }

end Kernel

end QuantumKernels
