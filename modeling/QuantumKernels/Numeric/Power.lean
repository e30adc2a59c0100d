/-!
Powers of naturals and integers are the built-in ones, also where algebraic structures bring powers
of their own.
-/

namespace QuantumKernels

@[default_instance 20000]
instance (priority := 2000) builtInPow {α : Type} [NatPow α] : Pow α Nat := instPowNat

end QuantumKernels
