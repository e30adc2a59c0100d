import QuantumKernels.Numeric.Scalar
import QuantumKernels.Buffer.Basic
/-!
Correction of readout errors. Each bit of an outcome is misread with two probabilities, one for
each prepared value; the measured distribution is multiplied by the inverse of that noise, one bit
after the other, then cut off at zero and scaled to a sum of one.
-/

namespace QuantumKernels.Readout

/-- The two ways to misread a bit. -/
inductive Flip where
  /-- a prepared 0 read as 1 -/
  | up
  /-- a prepared 1 read as 0 -/
  | down
deriving DecidableEq, Repr

def Flip.key : Flip → String
  | up => "ro-error-p01"
  | down => "ro-error-p10"

/-- Why a distribution cannot be corrected. -/
inductive Fault (α : Type) where
  | noRate (flip : Flip) (rates bit : Nat)
  | notProbability (flip : Flip) (rate : α)
  | singular (bit : Nat)
  | emptyDistribution
deriving DecidableEq, Repr

variable {α : Type} [Scalar α]

/-- The rate of a bit; a single one holds for all bits. -/
def rateFor (flip : Flip) (rates : List α) (bit : Nat) : Except (Fault α) α :=
  let rate? := match rates with
    | [single] => some single
    | rates => rates[bit]?
  match rate? with
  | none => .error (.noRate flip rates.length bit)
  | some rate =>
    if Scalar.zero ≤ rate ∧ rate ≤ Scalar.one then .ok rate else .error (.notProbability flip rate)

/-- The noise on one bit, undone: what a measured value says about a true one. -/
structure Inverse (α : Type) where
  up : α
  down : α
  determinant : α

def leastDeterminant : α := Scalar.one / Scalar.ofNat (10 ^ 12)

def inverseFor (up down : List α) (bit : Nat) : Except (Fault α) (Inverse α) := do
  let a ← rateFor .up up bit
  let b ← rateFor .down down bit
  let determinant := Scalar.one - a - b
  if Scalar.abs determinant < leastDeterminant then .error (.singular bit)
  else .ok ⟨a, b, determinant⟩

/-- The share of a measured value that goes to a true one. -/
def Inverse.weight (i : Inverse α) (truth measured : Bool) : α :=
  match truth, measured with
  | false, false => (Scalar.one - i.down) / i.determinant
  | false, true => -i.down / i.determinant
  | true, false => -i.up / i.determinant
  | true, true => (Scalar.one - i.up) / i.determinant

/-- Whether the outcome has a 1 at a bit. -/
def bitAt (outcome : String) (bit : Nat) : Bool := outcome.toList[bit]? == some '1'

/-- The outcome with another value at a bit, if it is that long. -/
def withBit (outcome : String) (bit : Nat) (value : Bool) : String :=
  String.ofList (outcome.toList.set bit (if value then '1' else '0'))

/-- Adds a share to an outcome; a share of nothing leaves the distribution as it is. -/
def addShare (distribution : Dictionary α) (outcome : String) (share : α) : Dictionary α :=
  if share == Scalar.zero then distribution
  else distribution.alter outcome fun v => v.getD Scalar.zero + share

/-- Undoes the noise on one bit. -/
def undo (i : Inverse α) (bit : Nat) (distribution : Dictionary α) : Dictionary α :=
  distribution.entries.foldl (fun acc (outcome, value) =>
    let measured := bitAt outcome bit
    let acc := addShare acc (withBit outcome bit false) (i.weight false measured * value)
    addShare acc (withBit outcome bit true) (i.weight true measured * value)) ∅

/-- The outcome with a character for each byte of its text. Zeros and ones stand for themselves. -/
def places (outcome : String) : String :=
  String.ofList ((outcome.toList.flatMap String.utf8EncodeChar).map fun byte => Char.ofNat byte.toNat)

/-- Relative frequencies of a histogram, by the places of each outcome. -/
def frequencies (counts : Dictionary Nat) : Dictionary α :=
  .ofList (counts.entries.map fun (outcome, n) =>
    (places outcome, Scalar.ofNat n / Scalar.ofNat (Buffer.wordTotal counts)))

/-- The number of places of the longest outcome. -/
def width (counts : Dictionary Nat) : Nat := (counts.keys.map String.utf8ByteSize).foldl max 0

/-- Cuts negative parts off and scales the rest to a sum of one. -/
def scaled (distribution : Dictionary α) : Except (Fault α) (Dictionary α) :=
  let kept := distribution.map fun v => if Scalar.zero < v then v else Scalar.zero
  let norm := Scalar.sum (kept.entries.map (·.2))
  if norm ≤ Scalar.zero then .error .emptyDistribution
  else .ok (kept.filterMap fun v => if Scalar.zero < v then some (v / norm) else none)

/-- The distribution that a histogram stands for, given the rates of each bit; nothing without
shots. -/
def correct (counts : Dictionary Nat) (up down : List α) : Except (Fault α) (Dictionary α) :=
  if Buffer.wordTotal counts = 0 then .ok ∅
  else do
    let distribution ← (List.range (width counts)).foldlM
      (fun distribution bit => do return undo (← inverseFor up down bit) bit distribution)
      (frequencies counts)
    scaled distribution

/-- The mean of one for an even outcome and minus one for an odd one. -/
def parity (distribution : Dictionary α) : α :=
  Scalar.sum (distribution.entries.map fun (outcome, p) => if Buffer.isEven outcome then p else -p)

end QuantumKernels.Readout
