import QuantumKernels.Buffer.Basic
import Mathlib.Data.Nat.Notation

/-!
# What buffers gain

A buffer is counted outcome by outcome. `Grown` says that a buffer is what it was with the contents
of another one behind it; taking over a third buffer, or an entry, keeps that.
-/
namespace QuantumKernels.Buffer

def count (b : Buffer) (bits : String) : ℕ := (b.counts.get? bits).getD 0

theorem getD_addCount (counts : Dictionary ℕ) (bits key : String) (n : ℕ) :
    ((addCount counts bits n).get? key).getD 0 =
      (counts.get? key).getD 0 + if bits = key then n else 0 := by
  unfold addCount
  split
  · rename_i hn
    simp [hn]
  · rw [Dictionary.alter, Dictionary.get?_insert]
    split <;> rename_i hkey
    · simp [hkey]
    · rfl

theorem getD_foldl_addCount (outcomes : List String) (counts : Dictionary ℕ) (key : String) :
    ((outcomes.foldl (fun counts bits => addCount counts bits 1) counts).get? key).getD 0 =
      (counts.get? key).getD 0 + outcomes.count key := by
  induction outcomes generalizing counts with
  | nil => rfl
  | cons bits outcomes ih =>
    rw [List.foldl_cons, ih, getD_addCount, List.count_cons]
    by_cases hkey : bits = key <;> simp [hkey]
    omega

theorem count_absorb (b other : Buffer) (bits : String) :
    (b.absorb other).count bits = b.count bits + other.measurements.count bits :=
  getD_foldl_addCount other.measurements b.counts bits

/-- How often an outcome stands in a list of counted outcomes. -/
def occurrences (counts : List (String × ℕ)) (bits : String) : ℕ :=
  counts.foldr (fun e n => (if e.1 = bits then e.2 else 0) + n) 0

theorem occurrences_cons (e : String × ℕ) (counts : List (String × ℕ)) (bits : String) :
    occurrences (e :: counts) bits = (if e.1 = bits then e.2 else 0) + occurrences counts bits := rfl

theorem name_size_appendCounts (b : Buffer) (counts : List (String × ℕ)) :
    (b.appendCounts counts).name = b.name ∧ (b.appendCounts counts).size = b.size := by
  induction counts generalizing b with
  | nil => exact ⟨rfl, rfl⟩
  | cons e counts ih => exact ih (b.appendCount e.1 e.2)

theorem measurements_appendCounts (b : Buffer) (counts : List (String × ℕ)) :
    (b.appendCounts counts).measurements =
      b.measurements ++ counts.flatMap fun e => List.replicate e.2 e.1 := by
  induction counts generalizing b with
  | nil => exact (List.append_nil _).symm
  | cons entry counts ih =>
    rw [List.flatMap_cons, ← List.append_assoc]
    exact ih (b.appendCount entry.1 entry.2)

theorem count_appendCounts (b : Buffer) (counts : List (String × ℕ)) (bits : String) :
    (b.appendCounts counts).count bits = b.count bits + occurrences counts bits := by
  induction counts generalizing b with
  | nil => rfl
  | cons e counts ih =>
    have hstep : (b.appendCount e.1 e.2).count bits = b.count bits + if e.1 = bits then e.2 else 0 :=
      getD_addCount b.counts e.1 bits e.2
    change ((b.appendCount e.1 e.2).appendCounts counts).count bits = _
    rw [ih, hstep, occurrences_cons, Nat.add_assoc]

theorem count_measurements_appendCounts (b : Buffer) (counts : List (String × ℕ)) (bits : String) :
    (b.appendCounts counts).measurements.count bits = b.measurements.count bits + occurrences counts bits := by
  rw [measurements_appendCounts, List.count_append]
  congr 1
  induction counts with
  | nil => rfl
  | cons e counts ih =>
    rw [List.flatMap_cons, List.count_append, ih, occurrences_cons, List.count_replicate]
    simp only [beq_iff_eq]

/-- The buffer `b'` is `b` with what `own`, of the same name and size, holds behind it: outcomes
follow outcomes, counts add up, and entries go over those of the same key. -/
structure Grown (b own b' : Buffer) : Prop where
  name : own.name = b.name ∧ b'.name = b.name
  size : own.size = b.size ∧ b'.size = b.size
  measurements : b'.measurements = b.measurements ++ own.measurements
  count : ∀ bits, b'.count bits = b.count bits + own.count bits
  info : ∀ key, b'.info.get? key = (own.info.get? key).or (b.info.get? key)
  children : b'.children = b.children ++ own.children

theorem grown_new (b : Buffer) : b.Grown (.new b.name b.size) b where
  name := ⟨rfl, rfl⟩
  size := ⟨rfl, rfl⟩
  measurements := (List.append_nil _).symm
  count _ := rfl
  info _ := rfl
  children := (List.append_nil _).symm

namespace Grown

variable {b own b' : Buffer}

theorem absorb (h : b.Grown own b') (other : Buffer) : b.Grown (own.absorb other) (b'.absorb other) where
  name := h.name
  size := h.size
  measurements := by
    change b'.measurements ++ other.measurements = b.measurements ++ (own.measurements ++ other.measurements)
    rw [h.measurements, List.append_assoc]
  count bits := by
    rw [count_absorb, count_absorb, h.count, Nat.add_assoc]
  info key := by
    change (b'.info.insertMany other.info.entries).get? key =
      ((own.info.insertMany other.info.entries).get? key).or (b.info.get? key)
    rw [Dictionary.get?_insertMany_entries, Dictionary.get?_insertMany_entries, h.info]
    cases other.info.get? key <;> rfl
  children := h.children

theorem setInfo (h : b.Grown own b') (key : String) (value : Info) :
    b.Grown (own.setInfo key value) (b'.setInfo key value) where
  name := h.name
  size := h.size
  measurements := h.measurements
  count := h.count
  info key' := by
    change (b'.info.insert key value).get? key' =
      ((own.info.insert key value).get? key').or (b.info.get? key')
    rw [Dictionary.get?_insert, Dictionary.get?_insert, h.info]
    split <;> rfl
  children := h.children

theorem append (h : b.Grown own b') (bits : String) : b.Grown (own.append bits) (b'.append bits) where
  name := h.name
  size := h.size
  measurements := by
    change b'.measurements ++ [bits] = b.measurements ++ (own.measurements ++ [bits])
    rw [h.measurements, List.append_assoc]
  count key := by
    change ((addCount b'.counts bits 1).get? key).getD 0 =
      b.count key + ((addCount own.counts bits 1).get? key).getD 0
    rw [getD_addCount, getD_addCount, ← Nat.add_assoc]
    exact congrArg (· + _) (h.count key)
  info := h.info
  children := h.children

end Grown

end QuantumKernels.Buffer
