import QuantumKernels.Numeric.Readout
import QuantumKernels.Proofs.Numeric.Exact

/-!
# Noise on the bits of an outcome

Every bit of an outcome is misread by itself, with two chances of its own. The inverse of that noise on one
bit takes it away there and leaves the other bits as they were measured, so that bit after bit the
distribution before the noise comes back.
-/
namespace QuantumKernels.Readout

variable {w : ℕ}

/-- The text of an outcome's bits. -/
def outcome (x : Fin w → Bool) : String := String.ofList (List.ofFn fun i => if x i then '1' else '0')

theorem toList_outcome (x : Fin w → Bool) :
    (outcome x).toList = List.ofFn fun i => if x i then '1' else '0' := String.toList_ofList

theorem bitAt_outcome (x : Fin w → Bool) (i : Fin w) : bitAt (outcome x) i = x i := by
  rw [bitAt, toList_outcome, List.getElem?_ofFn, dif_pos i.isLt]
  cases x i <;> simp

theorem outcome_injective : Function.Injective (outcome (w := w)) := by
  intro x y h
  funext i
  rw [← bitAt_outcome x i, h, bitAt_outcome]

theorem withBit_outcome (x : Fin w → Bool) (i : Fin w) (value : Bool) :
    withBit (outcome x) i value = outcome (Function.update x i value) := by
  rw [withBit, toList_outcome, outcome]
  congr 1
  apply List.ext_getElem
  · simp
  · intro j hj hj'
    rw [List.length_ofFn] at hj'
    by_cases hij : (i : ℕ) = j
    · obtain rfl : i = ⟨j, hj'⟩ := Fin.ext hij
      simp
    · have hne : (⟨j, hj'⟩ : Fin w) ≠ i := fun heq => hij (congrArg Fin.val heq).symm
      simp [List.getElem_set_ne hij, Function.update_of_ne hne]

theorem zero_or_one_of_mem_outcome {x : Fin w → Bool} {c : Char} (h : c ∈ (outcome x).toList) : c = '0' ∨ c = '1' := by
  rw [toList_outcome] at h
  obtain ⟨i, rfl⟩ := (List.mem_ofFn' _ c).mp h
  cases x i <;> simp

/-- Zeros and ones take one byte each. -/
theorem flatMap_utf8EncodeChar {l : List Char} (h : ∀ c ∈ l, c = '0' ∨ c = '1') :
    l.flatMap String.utf8EncodeChar = l.map fun c => c.toNat.toUInt8 := by
  induction l with
  | nil => rfl
  | cons c l ih =>
    rw [List.flatMap_cons, List.map_cons, ih fun d hd => h d (by simp [hd])]
    rcases h c (by simp) with rfl | rfl <;> rfl

theorem utf8ByteSize_outcome (x : Fin w → Bool) : (outcome x).utf8ByteSize = w := by
  rw [← String.size_toByteArray, ← String.utf8Encode_toList, List.utf8Encode,
    flatMap_utf8EncodeChar fun c hc => zero_or_one_of_mem_outcome hc, List.size_toByteArray, List.length_map,
    toList_outcome, List.length_ofFn]

theorem places_outcome (x : Fin w → Bool) : places (outcome x) = outcome x := by
  have hchars : (outcome x).toList.map ((fun byte : UInt8 => Char.ofNat byte.toNat) ∘ fun c => c.toNat.toUInt8) =
      (outcome x).toList := by
    refine (List.map_congr_left fun c hc => ?_).trans (List.map_id' _)
    rcases zero_or_one_of_mem_outcome hc with rfl | rfl <;> rfl
  rw [places, flatMap_utf8EncodeChar fun c hc => zero_or_one_of_mem_outcome hc, List.map_map, hchars,
    String.ofList_toList]

/-- The chance of reading a value, given the one that the bit was prepared with. -/
def misread (up down : ℚ) (prepared read : Bool) : ℚ :=
  match prepared, read with
  | false, false => 1 - up
  | false, true => up
  | true, false => down
  | true, true => 1 - down

/-- The noise with these chances, to be undone. -/
def inverseOf (up down : ℚ) : Inverse ℚ := ⟨up, down, 1 - up - down⟩

section

variable {up down : ℚ}

theorem weight_inverseOf (truth measured : Bool) : (inverseOf up down).weight truth measured =
    match truth, measured with
    | false, false => (1 - down) / (1 - up - down)
    | false, true => -down / (1 - up - down)
    | true, false => -up / (1 - up - down)
    | true, true => (1 - up) / (1 - up - down) := by
  cases truth <;> cases measured <;> simp [Inverse.weight, inverseOf]

/-- What is measured is shared out among the true values, no more and no less. -/
theorem weight_add_weight (hdet : 1 - up - down ≠ 0) (measured : Bool) :
    (inverseOf up down).weight false measured + (inverseOf up down).weight true measured = 1 := by
  rw [weight_inverseOf, weight_inverseOf]
  cases measured <;> field_simp <;> ring

theorem weight_misread (hdet : 1 - up - down ≠ 0) (truth prepared : Bool) :
    (inverseOf up down).weight truth false * misread up down prepared false +
      (inverseOf up down).weight truth true * misread up down prepared true = if prepared = truth then 1 else 0 := by
  rw [weight_inverseOf, weight_inverseOf]
  cases truth <;> cases prepared <;> simp only [misread] <;> field_simp <;> simp <;> ring

end

/-- A distribution over the outcomes of a width. -/
abbrev Weights (w : ℕ) := (Fin w → Bool) → ℚ

/-- The weights with the noise on one bit undone. -/
def undone (i : Inverse ℚ) (bit : Fin w) (g : Weights w) : Weights w := fun x =>
  i.weight (x bit) false * g (Function.update x bit false) + i.weight (x bit) true * g (Function.update x bit true)

/-- The rate of a bit; a single one is that of all bits. -/
def rateAt (rates : List ℚ) (bit : ℕ) : ℚ := if rates.length = 1 then rates.headD 0 else rates.getD bit 0

section

variable (up down : List ℚ)

/-- What is measured of a distribution when each bit is misread by itself. -/
def measured (t : Weights w) : Weights w := fun m =>
  ∑ x, t x * ∏ i : Fin w, misread (rateAt up i) (rateAt down i) (x i) (m i)

/-- Noise shares out weights in proportion, whatever they add up to. -/
theorem measured_mul (c : ℚ) (t : Weights w) :
    measured up down (fun x => c * t x) = fun m => c * measured up down t m := by
  funext m
  simp only [measured, Finset.mul_sum, mul_assoc]

/-- The chance of a value at a bit when only the bits from `n` on are misread. -/
def chanceFrom (n bit : ℕ) (prepared read : Bool) : ℚ :=
  if bit < n then if prepared = read then 1 else 0 else misread (rateAt up bit) (rateAt down bit) prepared read

/-- What is measured when only the bits from `n` on are misread. -/
def measuredFrom (n : ℕ) (t : Weights w) : Weights w := fun m =>
  ∑ x, t x * ∏ i : Fin w, chanceFrom up down n i (x i) (m i)

theorem measuredFrom_zero (t : Weights w) : measuredFrom up down 0 t = measured up down t := rfl

theorem measuredFrom_width (t : Weights w) : measuredFrom up down w t = t := by
  funext m
  have hproduct : ∀ x : Fin w → Bool, ∏ i : Fin w, chanceFrom up down w i (x i) (m i) = if x = m then 1 else 0 := by
    intro x
    simp only [chanceFrom, Fin.is_lt, if_true, Finset.prod_ite_zero, Finset.mem_univ, true_implies,
      Finset.prod_const_one, funext_iff]
  simp [measuredFrom, hproduct]

variable {up down}

theorem prod_chanceFrom_update (n : Fin w) (x m : Fin w → Bool) (read : Bool) :
    ∏ i : Fin w, chanceFrom up down n i (x i) (Function.update m n read i) =
      misread (rateAt up n) (rateAt down n) (x n) read *
        ∏ i ∈ Finset.univ.erase n, chanceFrom up down n i (x i) (m i) := by
  rw [← Finset.mul_prod_erase _ _ (Finset.mem_univ n)]
  congr 1
  · simp [chanceFrom]
  · apply Finset.prod_congr rfl
    intro i hi
    rw [Function.update_of_ne (Finset.ne_of_mem_erase hi)]

theorem prod_chanceFrom_succ (n : Fin w) (x m : Fin w → Bool) :
    ∏ i : Fin w, chanceFrom up down (n + 1) i (x i) (m i) =
      (if x n = m n then 1 else 0) * ∏ i ∈ Finset.univ.erase n, chanceFrom up down n i (x i) (m i) := by
  rw [← Finset.mul_prod_erase _ _ (Finset.mem_univ n)]
  congr 1
  · simp [chanceFrom]
  · apply Finset.prod_congr rfl
    intro i hi
    have hne : (i : ℕ) ≠ n := fun heq => Finset.ne_of_mem_erase hi (Fin.ext heq)
    have hbelow : (i : ℕ) < n + 1 ↔ (i : ℕ) < n := by omega
    simp only [chanceFrom, hbelow]

/-- The inverse takes the noise from the first bit that still has it. -/
theorem undone_measuredFrom (n : Fin w) (hdet : 1 - rateAt up n - rateAt down n ≠ 0) (t : Weights w) :
    undone (inverseOf (rateAt up n) (rateAt down n)) n (measuredFrom up down n t) = measuredFrom up down (n + 1) t := by
  funext m
  simp only [undone, measuredFrom, prod_chanceFrom_update, prod_chanceFrom_succ, Finset.mul_sum,
    ← Finset.sum_add_distrib]
  apply Finset.sum_congr rfl
  intro x _
  rw [← weight_misread hdet (m n) (x n)]
  ring

end

end QuantumKernels.Readout
