import QuantumKernels.Dictionary
import QuantumKernels.Numeric.Scalar
import QuantumKernels.Numeric.Word
/-!
Result buffers: a register of qubits with the outcomes measured on it. Every operation keeps
`counts` the histogram of `measurements`; a buffer that was loaded holds what its text said.

Counts are added up exactly and read as words of the machine, so that they start again from zero
where a word does. As words add up to the word of their sum, it makes no difference whether each
addition is cut down to a word or only what is read.
-/

namespace QuantumKernels

/-- A typed entry beside the outcomes of a buffer. -/
inductive Info where
  | int (value : Int64)
  | real (value : Float)
  | text (value : String)
  | ints (values : List Int64)
  | reals (values : List Float)
  | texts (values : List String)
deriving DecidableEq, BEq, Inhabited, Repr

namespace Info

/-- A natural number; one too large becomes the largest integer. -/
def ofNat (n : Nat) : Info := .int (Int64.ofNat (min n (2 ^ 63 - 1)))

/-- The value of a single number. -/
def toReal? : Info → Option Float
  | int n => match n.toInt with
    | .ofNat n => some (Float.ofNat n)
    | .negSucc n => some (-Float.ofNat (n + 1))
  | real x => some x
  | _ => none

def toText? : Info → Option String
  | text s => some s
  | _ => none

end Info

/-- Character `i` of an outcome is classical slot `i`. -/
structure Buffer where
  name : String
  size : Nat
  /-- in the order they were recorded -/
  measurements : List String := []
  /-- exact; `words` are what is read of them -/
  counts : Dictionary Nat := ∅
  info : Dictionary Info := ∅
  children : List Buffer := []
deriving Inhabited, Repr

namespace Buffer

/-- The words that a histogram is read as. -/
def words (counts : Dictionary Nat) : Dictionary Nat := counts.map Word.wrap

theorem get?_words (counts : Dictionary Nat) (bits : String) :
    (words counts).get? bits = (counts.get? bits).map Word.wrap := counts.get?_map Word.wrap bits

/-- Counts that fit a word are read as they are. -/
theorem words_of_fitting {counts : Dictionary Nat} (h : ∀ e ∈ counts.entries, e.2 < 2 ^ 64) :
    words counts = counts := by
  obtain ⟨entries, ascending⟩ := counts
  have hentries : entries.map (fun e => (e.1, Word.wrap e.2)) = entries := by
    refine (List.map_congr_left fun e he => ?_).trans (List.map_id entries)
    rw [Word.wrap_of_lt (h e he), id]
  simp only [words, Dictionary.map, hentries]

/-- Equality of all parts, reals compared as numbers. -/
def same (a b : Buffer) : Bool :=
  match a, b with
  | ⟨name, size, measurements, counts, info, children⟩,
    ⟨name', size', measurements', counts', info', children'⟩ =>
    name == name' && size == size' && measurements == measurements' && words counts == words counts'
      && info == info' && sameChildren children children'
where
  sameChildren : List Buffer → List Buffer → Bool
    | [], [] => true
    | a :: rest, b :: rest' => a.same b && sameChildren rest rest'
    | _, _ => false

instance : BEq Buffer := ⟨same⟩

/-- The empty buffer of that name and size. -/
def new (name : String) (size : Nat) : Buffer := { name, size }

/-- Adds occurrences of an outcome to a histogram; none of them leave it as it is. -/
def addCount (counts : Dictionary Nat) (bits : String) (n : Nat) : Dictionary Nat :=
  if n = 0 then counts else counts.alter bits fun c => c.getD 0 + n

/-- Records an outcome so many times. -/
def appendCount (b : Buffer) (bits : String) (n : Nat) : Buffer :=
  { b with
    measurements := b.measurements ++ List.replicate n bits
    counts := addCount b.counts bits n }

def append (b : Buffer) (bits : String) : Buffer := b.appendCount bits 1

def appendCounts (b : Buffer) (counts : List (String × Nat)) : Buffer :=
  counts.foldl (fun b e => b.appendCount e.1 e.2) b

def reset (b : Buffer) : Buffer := { b with measurements := [], counts := ∅ }

/-- Forgets all outcomes and records those of a histogram. -/
def replaceCounts (b : Buffer) (counts : Dictionary Nat) : Buffer := b.reset.appendCounts counts.entries

/-- Records the outcomes of another buffer as well. -/
def merge (b other : Buffer) : Buffer :=
  { b with
    measurements := b.measurements ++ other.measurements
    counts := other.measurements.foldl (fun counts bits => addCount counts bits 1) b.counts }

/-- Takes over outcomes and entries of another buffer. -/
def absorb (b other : Buffer) : Buffer :=
  let b := b.merge other
  { b with info := b.info.insertMany other.info.entries }

def setInfo (b : Buffer) (key : String) (value : Info) : Buffer :=
  { b with info := b.info.insert key value }

def attach (b : Buffer) (children : List Buffer) : Buffer := { b with children := b.children ++ children }

/-- The first child of that name. -/
def child? (b : Buffer) (name : String) : Option Buffer := b.children.find? fun c => c.name == name

def childNames (b : Buffer) : List String := b.children.map Buffer.name

/-- The exact sum of a histogram. -/
def total (counts : Dictionary Nat) : Nat := counts.entries.foldl (fun sum e => sum + e.2) 0

/-- The sum of a histogram as words are added up. -/
def wordTotal (counts : Dictionary Nat) : Nat := Word.wrap (total counts)

def shots (b : Buffer) : Nat := wordTotal b.counts

/-- The fraction of shots that gave an outcome, zero without shots. -/
def probability (b : Buffer) (bits : String) : Float :=
  if b.shots = 0 then 0
  else Float.ofNat (((words b.counts).get? bits).getD 0) / Float.ofNat b.shots

/-- Whether an outcome has an even number of ones. -/
def isEven (bits : String) : Bool := bits.toList.countP (· == '1') % 2 == 0

/-- The mean of one for an even outcome and minus one for an odd one, zero without shots. -/
def expectation (counts : Dictionary Nat) : Float :=
  if wordTotal counts = 0 then 0
  else
    let signed := (words counts).entries.map fun (bits, n) =>
      if isEven bits then Float.ofNat n else -Float.ofNat n
    Scalar.sum signed / Float.ofNat (wordTotal counts)

/-- The entry that overrides the expectation value of the outcomes. -/
def expectationKey : String := "exp-val-z"

def expectationZ (b : Buffer) : Float :=
  ((b.info.get? expectationKey).bind Info.toReal?).getD (expectation b.counts)

end Buffer

end QuantumKernels
