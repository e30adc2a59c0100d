/-!
Complex amplitudes on floating-point reals.
-/

namespace QuantumKernels

structure Amplitude where
  re : Float
  im : Float
deriving DecidableEq, Inhabited, Repr

namespace Amplitude

def zero : Amplitude := ⟨0, 0⟩

def one : Amplitude := ⟨1, 0⟩

def i : Amplitude := ⟨0, 1⟩

instance : Add Amplitude := ⟨fun a b => ⟨a.re + b.re, a.im + b.im⟩⟩
instance : Sub Amplitude := ⟨fun a b => ⟨a.re - b.re, a.im - b.im⟩⟩
instance : Neg Amplitude := ⟨fun a => ⟨-a.re, -a.im⟩⟩
instance : Mul Amplitude := ⟨fun a b => ⟨a.re * b.re - a.im * b.im, a.re * b.im + a.im * b.re⟩⟩

def scale (x : Float) (a : Amplitude) : Amplitude := ⟨x * a.re, x * a.im⟩

def divide (a : Amplitude) (x : Float) : Amplitude := ⟨a.re / x, a.im / x⟩

/-- The number of length one at an angle. -/
def turn (angle : Float) : Amplitude := ⟨angle.cos, angle.sin⟩

def normSquared (a : Amplitude) : Float := a.re * a.re + a.im * a.im

end Amplitude

end QuantumKernels
