/-!
What can go wrong with kernels, their graphs and their stored forms.
-/

namespace QuantumKernels

inductive KernelError where
  /-- a position beyond the end of what `context` names -/
  | outOfRange (index length : Nat) (context : String)
  /-- a bit that a map of `covered` entries leaves out -/
  | unmappedBit (bit covered : Nat)
  /-- a wrong number of `what` -/
  | arity (name what : String) (expected got : Nat)
  | unsupported (operation variant : String)
  | formula (source message : String)
  /-- a text that is no stored value of the kind wanted -/
  | malformed
  | unavailable
deriving DecidableEq, Repr

def KernelError.message : KernelError → String
  | outOfRange i n context => s!"Index {i} out of range for '{context}' (length {n})"
  | unmappedBit bit covered => s!"Bit {bit} has no entry in bit map of length {covered}"
  | arity name what expected got => s!"'{name}' expects {expected} {what}, got {got}"
  | unsupported operation variant => s!"Operation '{operation}' is not supported for {variant}"
  | formula source message => s!"Expression error in '{source}': {message}"
  | malformed => "Serialization error"
  | unavailable => "I/O error"

end QuantumKernels
