import QuantumKernels.Kernel.Basic
/-!
Step-by-step walks over a kernel, each block before its contents. A walk holds the lists of
instructions still to be visited, innermost first; `next?` visits one more.
-/

namespace QuantumKernels

/-- A walk in progress; `root` is where it starts again. -/
structure Traversal where
  root : List Instruction
  pending : List (List Instruction)
deriving Repr

namespace Traversal

def start (body : List Instruction) : Traversal := ⟨body, [body]⟩

def ofKernel (k : Kernel) : Traversal := start k.body

def reset (t : Traversal) : Traversal := start t.root

/-- Visits the first instruction of the innermost list that is not used up. -/
def advance : List (List Instruction) → Option (Instruction × List (List Instruction))
  | [] => none
  | [] :: outer => advance outer
  | (.leaf op :: rest) :: outer => some (.leaf op, rest :: outer)
  | (.block h body :: rest) :: outer => some (.block h body, body :: rest :: outer)

def next? (t : Traversal) : Option (Instruction × Traversal) :=
  (advance t.pending).map fun (i, pending) => (i, { t with pending })

/-- Whether an instruction is left to visit. -/
def hasNext (t : Traversal) : Bool := t.pending.any fun l => !l.isEmpty

/-- The number of instructions left to visit. -/
def left (pending : List (List Instruction)) : Nat :=
  (pending.flatMap Instruction.preorder.preorderOf).length

theorem left_advance {pending after : List (List Instruction)} {i : Instruction}
    (h : advance pending = some (i, after)) : left pending = left after + 1 := by
  fun_induction advance pending with
  | case1 => simp at h
  | case2 outer ih => simpa [left, Instruction.preorder.preorderOf] using ih h
  | case3 op rest outer =>
    cases h
    simp [left, Instruction.preorder.preorderOf, Instruction.preorder]
  | case4 hd body rest outer =>
    cases h
    simp [left, Instruction.preorder.preorderOf, Instruction.preorder]

/-- Visits all that is left. -/
def drain (pending : List (List Instruction)) : List Instruction :=
  match h : advance pending with
  | none => []
  | some (i, after) =>
    have : left after < left pending := by have := left_advance h; omega
    i :: drain after
termination_by left pending

def rest (t : Traversal) : List Instruction := drain t.pending

/-- The walk with nothing left to visit. -/
def finished (t : Traversal) : Traversal := { t with pending := [] }

end Traversal

end QuantumKernels
