import QuantumKernels.Proofs.Histogram
import QuantumKernels.Proofs.Numeric.Noise
import QuantumKernels.Proofs.Outcome

/-!
# Correction on exact numbers

On exact numbers, a correction with rates that tell zeros and ones apart always succeeds and gives a
distribution. If what was measured are the frequencies of some distribution under the noise with these
rates, it gives that distribution back.
-/
namespace QuantumKernels.Readout

/-- What the outcomes of a distribution come to, each counted so much. -/
def weighted (f : String → ℚ) (d : Dictionary ℚ) : ℚ := (d.entries.map fun e => f e.1 * e.2).sum

def share (d : Dictionary ℚ) (key : String) : ℚ := (d.get? key).getD 0

/-- Counts one outcome and no other. -/
def only (key : String) : String → ℚ := fun k => if k = key then 1 else 0

section

variable (f g : String → ℚ) (d : Dictionary ℚ)

theorem weighted_add : weighted (fun key => f key + g key) d = weighted f d + weighted g d := by
  simp only [weighted, add_mul, List.sum_map_add]

theorem weighted_mul (c : ℚ) : weighted (fun key => c * f key) d = c * weighted f d := by
  simp only [weighted, mul_assoc, List.sum_map_mul_left]

variable {f g d} in
theorem weighted_congr (h : ∀ e ∈ d.entries, f e.1 = g e.1) : weighted f d = weighted g d := by
  unfold weighted
  congr 1
  apply List.map_congr_left
  intro e he
  rw [h e he]

theorem weighted_addShare (key : String) (v : ℚ) : weighted f (addShare d key v) = weighted f d + f key * v := by
  unfold addShare
  split
  · rename_i hzero
    have hv : v = 0 := by simpa using hzero
    rw [hv, mul_zero, add_zero]
  · exact d.sum_alter (fun key => AddMonoidHom.mulLeft (f key)) key v

/-- What one measured outcome is shared out to. -/
def undoEntry (i : Inverse ℚ) (bit : ℕ) (acc : Dictionary ℚ) (e : String × ℚ) : Dictionary ℚ :=
  addShare (addShare acc (withBit e.1 bit false) (i.weight false (bitAt e.1 bit) * e.2))
    (withBit e.1 bit true) (i.weight true (bitAt e.1 bit) * e.2)

theorem undo_eq_foldl (i : Inverse ℚ) (bit : ℕ) : undo i bit d = d.entries.foldl (undoEntry i bit) ∅ := rfl

/-- What a measured outcome counts when the noise on a bit is undone. -/
def pulledBack (i : Inverse ℚ) (bit : ℕ) (key : String) : ℚ :=
  i.weight false (bitAt key bit) * f (withBit key bit false) + i.weight true (bitAt key bit) * f (withBit key bit true)

theorem weighted_undoEntry (i : Inverse ℚ) (bit : ℕ) (e : String × ℚ) :
    weighted f (undoEntry i bit d e) = weighted f d + pulledBack f i bit e.1 * e.2 := by
  rw [undoEntry, weighted_addShare, weighted_addShare, pulledBack]
  ring

/-- Undoing noise in a distribution is undoing it, the other way round, in what the outcomes count. -/
theorem weighted_undo (i : Inverse ℚ) (bit : ℕ) : weighted f (undo i bit d) = weighted (pulledBack f i bit) d := by
  have hfold (l : List (String × ℚ)) (acc : Dictionary ℚ) : weighted f (l.foldl (undoEntry i bit) acc) =
      weighted f acc + (l.map fun e => pulledBack f i bit e.1 * e.2).sum := by
    induction l generalizing acc with
    | nil => simp
    | cons e l ih => rw [List.foldl_cons, ih, weighted_undoEntry, List.map_cons, List.sum_cons, add_assoc]
  exact (hfold d.entries ∅).trans (zero_add _)

theorem share_eq_weighted (key : String) : share d key = weighted (only key) d := by
  unfold share weighted only
  simp only [ite_mul, one_mul, zero_mul]
  exact (d.sum_ite_key key).symm

end

/-- All keys of a distribution have a property. -/
theorem forall_addShare {P : String → Prop} {d : Dictionary ℚ} (hd : ∀ e ∈ d.entries, P e.1) {key : String}
    (hkey : P key) (v : ℚ) : ∀ e ∈ (addShare d key v).entries, P e.1 := by
  unfold addShare
  split
  · exact hd
  · intro e he
    rcases Dictionary.mem_insertEntry he with rfl | he
    · exact hkey
    · exact hd e he

theorem forall_undoEntry {P : String → Prop} {acc : Dictionary ℚ} (hacc : ∀ e ∈ acc.entries, P e.1) (i : Inverse ℚ)
    {bit : ℕ} {e : String × ℚ} (he : ∀ value, P (withBit e.1 bit value)) :
    ∀ d ∈ (undoEntry i bit acc e).entries, P d.1 :=
  forall_addShare (forall_addShare hacc (he false) _) (he true) _

theorem forall_undo {P : String → Prop} {d : Dictionary ℚ} {bit : ℕ}
    (hd : ∀ e ∈ d.entries, ∀ value, P (withBit e.1 bit value)) (i : Inverse ℚ) :
    ∀ e ∈ (undo i bit d).entries, P e.1 := by
  have hfold (l : List (String × ℚ)) (acc : Dictionary ℚ) (hl : ∀ e ∈ l, ∀ value, P (withBit e.1 bit value))
      (hacc : ∀ e ∈ acc.entries, P e.1) : ∀ e ∈ (l.foldl (undoEntry i bit) acc).entries, P e.1 := by
    induction l generalizing acc with
    | nil => exact hacc
    | cons e l ih =>
      exact ih _ (fun e he => hl e (by simp [he])) (forall_undoEntry hacc i (hl e (by simp)))
  rw [undo_eq_foldl]
  exact hfold d.entries ∅ hd nofun

variable {w : ℕ}

/-- The distribution is one over outcomes of a width, with these weights. -/
structure Stands (d : Dictionary ℚ) (g : Weights w) : Prop where
  outcomes : ∀ e ∈ d.entries, ∃ x : Fin w → Bool, e.1 = outcome x
  share : ∀ x, share d (outcome x) = g x

/-- A measured outcome has a share in a true one if they differ in that bit at most. -/
theorem transposed_indicator (i : Inverse ℚ) (bit : Fin w) (x y : Fin w → Bool) :
    i.weight false (y bit) * (if Function.update y bit false = x then 1 else 0) +
      i.weight true (y bit) * (if Function.update y bit true = x then 1 else 0) =
    i.weight (x bit) false * (if y = Function.update x bit false then 1 else 0) +
      i.weight (x bit) true * (if y = Function.update x bit true then 1 else 0) := by
  simp only [Function.update_eq_iff, Function.eq_update_iff]
  cases x bit <;> cases y bit <;> simp

theorem Stands.undo {d : Dictionary ℚ} {g : Weights w} (h : Stands d g) (i : Inverse ℚ) (bit : Fin w) :
    Stands (Readout.undo i bit d) (undone i bit g) where
  outcomes := by
    apply forall_undo (P := fun key => ∃ x : Fin w → Bool, key = outcome x)
    intro e he value
    obtain ⟨x, hx⟩ := h.outcomes e he
    exact ⟨_, by rw [hx, withBit_outcome]⟩
  share x := by
    rw [share_eq_weighted, weighted_undo]
    have hpull : ∀ e ∈ d.entries, pulledBack (only (outcome x)) i bit e.1 =
        i.weight (x bit) false * only (outcome (Function.update x bit false)) e.1 +
          i.weight (x bit) true * only (outcome (Function.update x bit true)) e.1 := by
      intro e he
      obtain ⟨y, hy⟩ := h.outcomes e he
      rw [hy]
      simp only [pulledBack, only, bitAt_outcome, withBit_outcome, outcome_injective.eq_iff]
      exact transposed_indicator i bit x y
    calc weighted _ d
      _ = weighted (fun key => i.weight (x bit) false * only (outcome (Function.update x bit false)) key +
            i.weight (x bit) true * only (outcome (Function.update x bit true)) key) d := weighted_congr hpull
      _ = i.weight (x bit) false * Readout.share d (outcome (Function.update x bit false)) +
            i.weight (x bit) true * Readout.share d (outcome (Function.update x bit true)) := by
        rw [weighted_add, weighted_mul, weighted_mul, share_eq_weighted, share_eq_weighted]
      _ = undone i bit g x := by rw [h.share, h.share, undone]

/-- All shares together. -/
theorem sum_undo {i : Inverse ℚ} (hcolumns : ∀ measured, i.weight false measured + i.weight true measured = 1)
    (bit : ℕ) (d : Dictionary ℚ) : ((undo i bit d).entries.map (·.2)).sum = (d.entries.map (·.2)).sum := by
  have hundo := weighted_undo (fun _ => 1) d i bit
  simpa [weighted, pulledBack, hcolumns] using hundo

/-- One rate for all bits or a rate for each of them, all of them chances, and on no bit are zeros and
ones misread so often that they cannot be told apart. -/
structure Calibrated (w : ℕ) (up down : List ℚ) : Prop where
  up_enough : up.length = 1 ∨ w ≤ up.length
  down_enough : down.length = 1 ∨ w ≤ down.length
  up_chance : ∀ bit < w, 0 ≤ rateAt up bit ∧ rateAt up bit ≤ 1
  down_chance : ∀ bit < w, 0 ≤ rateAt down bit ∧ rateAt down bit ≤ 1
  apart : ∀ bit < w, 1 / 10 ^ 12 ≤ |1 - rateAt up bit - rateAt down bit|

theorem rateFor_eq_ok (flip : Flip) {rates : List ℚ} {bit : ℕ} (henough : rates.length = 1 ∨ bit < rates.length)
    (hchance : 0 ≤ rateAt rates bit ∧ rateAt rates bit ≤ 1) : rateFor flip rates bit = .ok (rateAt rates bit) := by
  rcases rates with _ | ⟨single, _ | ⟨second, rest⟩⟩
  · simp at henough
  · have hrate : rateAt [single] bit = single := rfl
    rw [hrate] at hchance ⊢
    simp only [rateFor, Scalar.zero_rat, Scalar.one_rat]
    exact if_pos hchance
  · have hbit : bit < (single :: second :: rest).length := henough.resolve_left (by simp)
    have hrate : rateAt (single :: second :: rest) bit = (single :: second :: rest)[bit] := by
      rw [rateAt, if_neg (by simp), List.getD_eq_getElem?_getD, List.getElem?_eq_getElem hbit, Option.getD_some]
    rw [hrate] at hchance ⊢
    simp only [rateFor, List.getElem?_eq_getElem hbit, Scalar.zero_rat, Scalar.one_rat]
    exact if_pos hchance

theorem Calibrated.inverseFor {up down : List ℚ} (h : Calibrated w up down) {bit : ℕ} (hbit : bit < w) :
    inverseFor up down bit = .ok (inverseOf (rateAt up bit) (rateAt down bit)) := by
  have hup := rateFor_eq_ok .up (h.up_enough.imp_right (by omega)) (h.up_chance bit hbit)
  have hdown := rateFor_eq_ok .down (h.down_enough.imp_right (by omega)) (h.down_chance bit hbit)
  have hapart : ¬ |1 - rateAt up bit - rateAt down bit| < 1 / 10 ^ 12 := not_lt.mpr (h.apart bit hbit)
  rw [Readout.inverseFor, hup, hdown]
  change (if Scalar.abs (1 - rateAt up bit - rateAt down bit : ℚ) < leastDeterminant then _ else _) = _
  rw [Scalar.abs_rat, leastDeterminant, Scalar.one_rat, Scalar.ofNat_rat, if_neg (by exact_mod_cast hapart)]
  rfl

theorem Calibrated.determinant_ne_zero {up down : List ℚ} (h : Calibrated w up down) {bit : ℕ} (hbit : bit < w) :
    1 - rateAt up bit - rateAt down bit ≠ 0 := by
  intro hzero
  have hapart := h.apart bit hbit
  rw [hzero, abs_zero] at hapart
  norm_num at hapart

/-- After so many bits the shares still add up to what they did, and of a distribution that was measured only
the noise on the bits from there on is left. -/
theorem Calibrated.foldlM_undo {up down : List ℚ} (h : Calibrated w up down) (d : Dictionary ℚ) {n : ℕ} (hn : n ≤ w) :
    ∃ d', (List.range n).foldlM (fun d bit => do return undo (← Readout.inverseFor up down bit) bit d) d = .ok d' ∧
      (d'.entries.map (·.2)).sum = (d.entries.map (·.2)).sum ∧
      ∀ t : Weights w, Stands d (measured up down t) → Stands d' (measuredFrom up down n t) := by
  induction n with
  | zero =>
    refine ⟨d, rfl, rfl, fun t hd => ?_⟩
    rw [measuredFrom_zero]
    exact hd
  | succ n ih =>
    obtain ⟨d', hrun, hsum, hstands⟩ := ih (by omega)
    have hbit : n < w := by omega
    have hdet := h.determinant_ne_zero hbit
    refine ⟨undo (inverseOf (rateAt up n) (rateAt down n)) n d', ?_, ?_, fun t hd => ?_⟩
    · have hstep : (do return undo (← Readout.inverseFor up down n) n d' : Except (Fault ℚ) (Dictionary ℚ)) =
          .ok (undo (inverseOf (rateAt up n) (rateAt down n)) n d') := by
        rw [h.inverseFor hbit]
        rfl
      rw [List.range_succ, List.foldlM_append, hrun]
      exact bind_eq_ok_iff.mpr ⟨d', rfl, foldlM_cons_eq_ok_iff.mpr ⟨_, hstep, rfl⟩⟩
    · rw [sum_undo (weight_add_weight hdet), hsum]
    · have hstep := (hstands t hd).undo (inverseOf (rateAt up n) (rateAt down n)) ⟨n, hbit⟩
      rw [undone_measuredFrom ⟨n, hbit⟩ hdet] at hstep
      exact hstep

/-- The distribution with its negative parts cut off. -/
def cut (d : Dictionary ℚ) : Dictionary ℚ := d.map fun v => max v 0

/-- The positive parts of a distribution, each divided by a norm. -/
def positiveParts (norm : ℚ) (d : Dictionary ℚ) : Dictionary ℚ :=
  d.filterMap fun v => if 0 < v then some (v / norm) else none

theorem scaled_eq (d : Dictionary ℚ) : scaled d =
    if ((cut d).entries.map (·.2)).sum ≤ 0 then .error .emptyDistribution
    else .ok (positiveParts ((cut d).entries.map (·.2)).sum (cut d)) := by
  have hcut : (d.map fun v => if Scalar.zero < v then v else Scalar.zero) = cut d := by
    unfold cut
    congr 1
    funext v
    rw [Scalar.zero_rat]
    split
    · exact (max_eq_left (le_of_lt ‹_›)).symm
    · exact (max_eq_right (not_lt.mp ‹_›)).symm
  unfold scaled
  rw [hcut]
  simp only [Scalar.sum_rat, Scalar.zero_rat]
  rfl

theorem sum_le_sum_cut (d : Dictionary ℚ) : (d.entries.map (·.2)).sum ≤ ((cut d).entries.map (·.2)).sum := by
  change _ ≤ ((d.entries.map fun e => (e.1, max e.2 0)).map (·.2)).sum
  rw [List.map_map]
  exact List.sum_le_sum fun e _ => le_max_left e.2 0

theorem pos_of_mem_positiveParts {norm : ℚ} (hnorm : 0 < norm) {d : Dictionary ℚ} {e : String × ℚ}
    (he : e ∈ (positiveParts norm d).entries) : 0 < e.2 := by
  rw [positiveParts, Dictionary.entries_filterMap] at he
  obtain ⟨d, -, hmap⟩ := List.mem_filterMap.mp he
  obtain ⟨v, hv, rfl⟩ := Option.map_eq_some_iff.mp hmap
  obtain ⟨hpos, hquotient⟩ := Option.ite_none_right_eq_some.mp hv
  cases hquotient
  exact div_pos hpos hnorm

theorem sum_positiveParts (norm : ℚ) {d : Dictionary ℚ} (hd : ∀ e ∈ d.entries, 0 ≤ e.2) :
    ((positiveParts norm d).entries.map (·.2)).sum = (d.entries.map (·.2)).sum / norm := by
  rw [positiveParts, Dictionary.entries_filterMap]
  generalize d.entries = l at hd
  induction l with
  | nil => simp
  | cons e l ih =>
    have ih := ih fun e he => hd e (by simp [he])
    rw [List.map_cons, List.sum_cons, add_div, ← ih, List.filterMap_cons]
    by_cases hpos : 0 < e.2
    · simp [hpos]
    · have hzero : e.2 = 0 := le_antisymm (not_lt.mp hpos) (hd e (by simp))
      simp [hzero]

theorem cut_nonneg (d : Dictionary ℚ) : ∀ e ∈ (cut d).entries, 0 ≤ e.2 := by
  intro e he
  obtain ⟨d, -, rfl⟩ := List.mem_map.mp he
  exact le_max_right d.2 0

/-- What is scaled has positive shares, which are one in all. -/
theorem shares_of_scaled {d d' : Dictionary ℚ} (h : scaled d = .ok d') :
    (∀ e ∈ d'.entries, 0 < e.2) ∧ (d'.entries.map (·.2)).sum = 1 := by
  rw [scaled_eq] at h
  split at h <;> cases h
  rename_i hnorm
  have hpos := not_le.mp hnorm
  refine ⟨fun e he => pos_of_mem_positiveParts hpos he, ?_⟩
  rw [sum_positiveParts _ (cut_nonneg d), div_self hpos.ne']

theorem shares_of_correct {counts : Dictionary ℕ} {up down : List ℚ} {d : Dictionary ℚ}
    (hshots : Buffer.wordTotal counts ≠ 0) (h : correct counts up down = .ok d) :
    (∀ e ∈ d.entries, 0 < e.2) ∧ (d.entries.map (·.2)).sum = 1 := by
  rw [correct, if_neg hshots] at h
  obtain ⟨d', -, hscaled⟩ := bind_eq_ok_iff.mp h
  exact shares_of_scaled hscaled

/-- A distribution with a positive sum can be scaled; without negative parts each share is divided by the sum,
and outcomes without a share are left out. -/
theorem exists_scaled {d : Dictionary ℚ} {norm : ℚ} (hsum : (d.entries.map (·.2)).sum = norm) (hpos : 0 < norm) :
    ∃ d', scaled d = .ok d' ∧ ((∀ e ∈ d.entries, 0 ≤ e.2) → d' = positiveParts norm d) := by
  have hnorm : 0 < ((cut d).entries.map (·.2)).sum := by
    have hcut := sum_le_sum_cut d
    linarith
  refine ⟨_, by rw [scaled_eq, if_neg (not_le.mpr hnorm)], fun hd => ?_⟩
  have hcut : cut d = d := by
    have hentries : (cut d).entries = d.entries := by
      refine (List.map_congr_left fun e he => ?_).trans (List.map_id _)
      exact Prod.ext rfl (max_eq_left (hd e he))
    rw [← (cut d).ofList_entries, hentries, d.ofList_entries]
  rw [hcut, hsum]

/-- A histogram of outcomes of this width. -/
def Histogram (w : ℕ) (counts : Dictionary ℕ) : Prop := ∀ e ∈ counts.entries, ∃ x : Fin w → Bool, e.1 = outcome x

section

variable {counts : Dictionary ℕ}

/-- The histogram as a distribution. -/
def relative (counts : Dictionary ℕ) : Dictionary ℚ := counts.map fun n : ℕ => (n : ℚ) / Buffer.wordTotal counts

/-- What the distribution adds up to: more than one where the shots do not fit a word. -/
def excess (counts : Dictionary ℕ) : ℚ := Buffer.total counts / Buffer.wordTotal counts

theorem total_ne_zero (hshots : Buffer.wordTotal counts ≠ 0) : Buffer.total counts ≠ 0 := by
  intro hzero
  rw [Buffer.wordTotal, hzero] at hshots
  exact hshots rfl

theorem excess_pos (hshots : Buffer.wordTotal counts ≠ 0) : 0 < excess counts :=
  div_pos (by exact_mod_cast Nat.pos_of_ne_zero (total_ne_zero hshots))
    (by exact_mod_cast Nat.pos_of_ne_zero hshots)

theorem Histogram.frequencies_eq (h : Histogram w counts) : frequencies counts = relative counts := by
  have hentries : (counts.entries.map fun e =>
      (places e.1, (Scalar.ofNat e.2 / Scalar.ofNat (Buffer.wordTotal counts) : ℚ))) = (relative counts).entries := by
    apply List.map_congr_left
    intro e he
    obtain ⟨x, hx⟩ := h e he
    rw [hx, places_outcome]
    rfl
  rw [frequencies, hentries, Dictionary.ofList_entries]

theorem foldl_max_replicate (w n start : ℕ) : (List.replicate (n + 1) w).foldl max start = max start w := by
  induction n generalizing start with
  | zero => rfl
  | succ n ih => rw [List.replicate_succ, List.foldl_cons, ih, Nat.max_assoc, Nat.max_self]

theorem Histogram.width_eq (h : Histogram w counts) (hne : counts.entries ≠ []) : width counts = w := by
  have hsizes : counts.keys.map String.utf8ByteSize = List.replicate counts.entries.length w := by
    rw [Dictionary.keys, List.map_map, ← List.map_const']
    apply List.map_congr_left
    intro e he
    obtain ⟨x, hx⟩ := h e he
    rw [Function.comp_apply, hx, utf8ByteSize_outcome]
  obtain ⟨n, hn⟩ := Nat.exists_eq_succ_of_ne_zero (mt List.length_eq_zero_iff.mp hne)
  rw [width, hsizes, hn, foldl_max_replicate, Nat.zero_max]

theorem sum_relative (counts : Dictionary ℕ) : ((relative counts).entries.map (·.2)).sum = excess counts := by
  have hcounts : (counts.entries.map fun e => (e.2 : ℚ)).sum = Buffer.total counts := by
    rw [Buffer.total_eq_sum, Nat.cast_list_sum, List.map_map]
    rfl
  change ((counts.entries.map fun e => (e.1, (e.2 : ℚ) / Buffer.wordTotal counts)).map (·.2)).sum = _
  rw [List.map_map]
  change (counts.entries.map fun e => (e.2 : ℚ) / Buffer.wordTotal counts).sum = _
  simp only [div_eq_mul_inv, List.sum_map_mul_right, hcounts, excess]

/-- Frequencies that are relative to the exact total are exceeded by those that are relative to its word. -/
theorem Histogram.stands (h : Histogram w counts) (hshots : Buffer.wordTotal counts ≠ 0) {g : Weights w}
    (hg : ∀ m, ((counts.get? (outcome m)).getD 0 : ℚ) / Buffer.total counts = g m) :
    Stands (relative counts) fun x => excess counts * g x where
  outcomes e he := by
    obtain ⟨c, hc, rfl⟩ := List.mem_map.mp he
    exact h c hc
  share x := by
    have htotal : (Buffer.total counts : ℚ) ≠ 0 := by exact_mod_cast total_ne_zero hshots
    have hcount : share (relative counts) (outcome x) =
        ((counts.get? (outcome x)).getD 0 : ℚ) / Buffer.wordTotal counts := by
      rw [share, relative, Dictionary.get?_map]
      cases counts.get? (outcome x) <;> simp
    rw [hcount, ← hg x, excess]
    field_simp

end

section

variable {d : Dictionary ℚ} {g : Weights w}

theorem Stands.eq_of_mem (h : Stands d g) {key : String} {v : ℚ} (hmem : (key, v) ∈ d.entries) :
    ∃ x, key = outcome x ∧ g x = v := by
  obtain ⟨x, hx⟩ := h.outcomes (key, v) hmem
  refine ⟨x, hx, ?_⟩
  rw [← h.share x, Readout.share, ← hx, d.get?_eq_some_iff.mpr hmem, Option.getD_some]

/-- Weights that are all exceeded by one factor are divided by it again. -/
theorem Stands.get?_positiveParts {norm : ℚ} (h : Stands d fun x => norm * g x) (hnorm : 0 < norm)
    (hg : ∀ x, 0 ≤ g x) (key : String) (v : ℚ) :
    (positiveParts norm d).get? key = some v ↔ ∃ x, key = outcome x ∧ g x = v ∧ v ≠ 0 := by
  rw [positiveParts, Dictionary.get?_filterMap, Option.bind_eq_some_iff]
  simp only [Option.ite_none_right_eq_some, Option.some.injEq]
  constructor
  · rintro ⟨u, hget, hpos, rfl⟩
    obtain ⟨x, hkey, hx⟩ := h.eq_of_mem (d.get?_eq_some_iff.mp hget)
    exact ⟨x, hkey, (eq_div_iff hnorm.ne').mpr (by rw [mul_comm, hx]), (div_pos hpos hnorm).ne'⟩
  · rintro ⟨x, rfl, rfl, hne⟩
    have hshare : (d.get? (outcome x)).getD 0 = norm * g x := h.share x
    have hpos : 0 < norm * g x := mul_pos hnorm (lt_of_le_of_ne (hg x) hne.symm)
    cases hget : d.get? (outcome x) with
    | none =>
      rw [hget] at hshare
      exact absurd hshare hpos.ne
    | some u =>
      rw [hget, Option.getD_some] at hshare
      exact ⟨u, rfl, hshare ▸ hpos, by rw [hshare, mul_div_cancel_left₀ _ hnorm.ne']⟩

end

/-- Rates that tell zeros and ones apart correct every histogram whose total is not read as zero, to positive shares that are one
in all. Where the histogram has the frequencies of a distribution as it is measured with these rates, they are
the shares of that distribution, except that outcomes without a share are left out. -/
theorem correct_undoes_noise {up down : List ℚ} (hrates : Calibrated w up down) {counts : Dictionary ℕ}
    (houtcomes : Histogram w counts) (hshots : Buffer.wordTotal counts ≠ 0) :
    ∃ d, correct counts up down = .ok d ∧ (∀ e ∈ d.entries, 0 < e.2) ∧ (d.entries.map (·.2)).sum = 1 ∧
      ∀ t : Weights w, (∀ x, 0 ≤ t x) →
        (∀ m, ((counts.get? (outcome m)).getD 0 : ℚ) / Buffer.total counts = measured up down t m) →
        ∀ key v, d.get? key = some v ↔ ∃ x, key = outcome x ∧ t x = v ∧ v ≠ 0 := by
  have hne : counts.entries ≠ [] := by
    intro hempty
    have htotal := total_ne_zero hshots
    rw [Buffer.total_eq_sum, hempty] at htotal
    exact htotal rfl
  obtain ⟨d', hrun, hsum, hstands⟩ := hrates.foldlM_undo (relative counts) le_rfl
  obtain ⟨d, hscaled, hparts⟩ := exists_scaled (hsum.trans (sum_relative counts)) (excess_pos hshots)
  have hcorrect : correct counts up down = .ok d := by
    rw [correct, if_neg hshots, houtcomes.width_eq hne, houtcomes.frequencies_eq]
    exact bind_eq_ok_iff.mpr ⟨d', hrun, hscaled⟩
  obtain ⟨hpos, hone⟩ := shares_of_correct hshots hcorrect
  refine ⟨d, hcorrect, hpos, hone, fun t ht hmeasured => ?_⟩
  have hrelative := houtcomes.stands hshots hmeasured
  rw [← measured_mul] at hrelative
  have htrue := hstands _ hrelative
  rw [measuredFrom_width] at htrue
  have hnonneg : ∀ e ∈ d'.entries, 0 ≤ e.2 := by
    intro e he
    obtain ⟨x, -, hx⟩ := htrue.eq_of_mem he
    exact hx ▸ mul_nonneg (excess_pos hshots).le (ht x)
  rw [hparts hnonneg]
  exact htrue.get?_positiveParts (excess_pos hshots) ht

/-- Zeros and ones misread more often on the first bit than on the second, where ones never are. -/
def upRates : List ℚ := [1 / 5, 1 / 10]

def downRates : List ℚ := [1 / 10, 0]

/-- Half of the weight on zeros, the other half shared by two outcomes that end in a one. -/
def unevenPair : Weights 2 := fun x =>
  if x 1 then 1 / 4 else if x 0 then 0 else 1 / 2

/-- How often each outcome is measured of it in 200 shots. -/
def noisyCounts : Dictionary ℕ := .ofList [("00", 72), ("01", 53), ("10", 18), ("11", 57)]

theorem correct_undoes_noise_unevenPair :
    Calibrated 2 upRates downRates ∧ Histogram 2 noisyCounts ∧ Buffer.total noisyCounts = 200 ∧
      ∃ d, correct noisyCounts upRates downRates = .ok d ∧ d.get? "00" = some (1 / 2) ∧
        d.get? "01" = some (1 / 4) ∧ d.get? "11" = some (1 / 4) ∧ d.get? "10" = none := by
  have hrates : Calibrated 2 upRates downRates := by
    refine ⟨.inr le_rfl, .inr le_rfl, ?_, ?_, ?_⟩
    all_goals
      intro bit hbit
      interval_cases bit <;> norm_num [upRates, downRates, rateAt]
  have hcounts : noisyCounts.entries = [("00", 72), ("01", 53), ("10", 18), ("11", 57)] := by decide +kernel
  have houtcomes : Histogram 2 noisyCounts := by
    simp only [Histogram, hcounts, List.forall_mem_cons]
    exact ⟨⟨![false, false], rfl⟩, ⟨![false, true], rfl⟩, ⟨![true, false], rfl⟩, ⟨![true, true], rfl⟩, nofun⟩
  have hshots : Buffer.total noisyCounts = 200 := by decide +kernel
  obtain ⟨d, hcorrect, -, -, hundone⟩ := correct_undoes_noise hrates houtcomes
    (by rw [Buffer.wordTotal, hshots]; decide)
  have hweights : ∀ x, 0 ≤ unevenPair x := by
    intro x
    unfold unevenPair
    split_ifs <;> norm_num
  have hmeasured : ∀ m, ((noisyCounts.get? (outcome m)).getD 0 : ℚ) / Buffer.total noisyCounts =
      measured upRates downRates unevenPair m := by
    decide +kernel
  have hd := hundone unevenPair hweights hmeasured
  have hshare : ∀ x : Fin 2 → Bool, unevenPair x ≠ 0 → d.get? (outcome x) = some (unevenPair x) :=
    fun x hx => (hd _ _).mpr ⟨x, rfl, rfl, hx⟩
  refine ⟨hrates, houtcomes, hshots, d, hcorrect, ?_, ?_, ?_, ?_⟩
  · exact hshare ![false, false] (by norm_num [unevenPair])
  · exact hshare ![false, true] (by norm_num [unevenPair])
  · exact hshare ![true, true] (by norm_num [unevenPair])
  · apply Option.eq_none_iff_forall_ne_some.mpr
    intro v hv
    obtain ⟨x, hx, hzero, hne⟩ := (hd _ _).mp hv
    have hx' : x = ![true, false] := outcome_injective hx.symm
    rw [hx'] at hzero
    exact hne hzero.symm

end QuantumKernels.Readout
