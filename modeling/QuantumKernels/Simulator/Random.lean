import QuantumKernels.Numeric.Power

/-!
Random words. A stream gives one word after another; a source gives a stream for each seed and one
for no seed. Nothing but the words decides what is drawn.
-/

namespace QuantumKernels

structure RandomStream where
  word : Nat → UInt64
  /-- how many words have been taken -/
  used : Nat := 0

namespace RandomStream

def next (r : RandomStream) : UInt64 × RandomStream := (r.word r.used, { r with used := r.used + 1 })

/-- A real from zero up to but not including one, from the upper 53 bits of a word. -/
def unit (r : RandomStream) : Float × RandomStream :=
  let (w, r) := r.next
  (Float.ofNat (w.toNat >>> 11) / Float.ofNat (2 ^ 53), r)

/-- True with a probability. What is certain takes no word; what is no probability has no outcome. -/
def chance? (p : Float) (r : RandomStream) : Option (Bool × RandomStream) :=
  if p == 1 then some (true, r)
  else if 0 ≤ p ∧ p < 1 then
    let (w, r) := r.next
    some (w < (p * Float.ofNat (2 ^ 64)).toUInt64, r)
  else none

end RandomStream

/-- A stream of words for each seed, and one without a seed. -/
structure RandomSource where
  stream : Option Nat → RandomStream

namespace RandomSource

/-- Spreads the bits of a word. -/
def mix (w : UInt64) : UInt64 :=
  let w := (w ^^^ (w >>> 30)) * 0xbf58476d1ce4e5b9
  let w := (w ^^^ (w >>> 27)) * 0x94d049bb133111eb
  w ^^^ (w >>> 31)

/-- Words mixed from multiples of an odd constant, counted from the seed. -/
def mixing : RandomSource where
  stream seed := { word := fun n => mix (UInt64.ofNat (seed.getD 0) + UInt64.ofNat (n + 1) * 0x9e3779b97f4a7c15) }

end RandomSource

end QuantumKernels
