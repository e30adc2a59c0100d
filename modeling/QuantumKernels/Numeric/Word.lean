import QuantumKernels.Numeric.Power

/-!
Words of the machine. A sum that does not fit a word starts again from zero.
-/

namespace QuantumKernels.Word

/-- What a word holds of a number. -/
def wrap (n : Nat) : Nat := n % 2 ^ 64

theorem wrap_le (n : Nat) : wrap n ≤ n := Nat.mod_le n _

theorem wrap_of_lt {n : Nat} (h : n < 2 ^ 64) : wrap n = n := Nat.mod_eq_of_lt h

/-- A number that a word holds no less of fits the word. -/
theorem wrap_of_le {n : Nat} (h : n ≤ wrap n) : wrap n = n := Nat.le_antisymm (wrap_le n) h

@[simp]
theorem wrap_wrap (n : Nat) : wrap (wrap n) = wrap n := Nat.mod_mod n _

/-- Words add up to what a word holds of the sum. -/
theorem wrap_add_wrap (a b : Nat) : wrap (wrap a + wrap b) = wrap (a + b) := (Nat.add_mod a b _).symm

theorem wrap_add_wrap_left (a b : Nat) : wrap (wrap a + b) = wrap (a + b) := Nat.mod_add_mod a _ b

end QuantumKernels.Word
