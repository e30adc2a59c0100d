import QuantumKernels.Proofs.Buffer
import QuantumKernels.Proofs.Dictionary

/-!
# The histogram of a buffer

Outcomes are kept twice, in the order of recording and counted. Every operation on a buffer keeps
the counts the histogram of the outcomes, so that a buffer which is taken over adds its counts.
-/
namespace QuantumKernels

theorem Dictionary.nodup_keys {α : Type} (m : Dictionary α) : m.keys.Nodup := by
  refine List.pairwise_map.mpr (m.ascending.imp fun {a b} hlt heq => ?_)
  rw [heq] at hlt
  exact String.lt_irrefl _ hlt

theorem Dictionary.mem_keys {α : Type} (m : Dictionary α) {k : String} :
    k ∈ m.keys ↔ ∃ v, m.get? k = some v := by
  simp [keys, m.get?_eq_some_iff]

theorem Word.wrap_sum (l : List ℕ) : wrap (l.map wrap).sum = wrap l.sum := by
  induction l with
  | nil => rfl
  | cons n rest ih =>
    rw [List.map_cons, List.sum_cons, List.sum_cons, ← wrap_add_wrap, ih, wrap_add_wrap, wrap_add_wrap_left]

namespace Buffer

/-- The counts are the histogram of the measurements; an outcome that was not measured has none. -/
def Counted (b : Buffer) : Prop :=
  ∀ bits, b.counts.get? bits = if bits ∈ b.measurements then some (b.measurements.count bits) else none

theorem get?_addCount (counts : Dictionary ℕ) (bits key : String) (n : ℕ) :
    (addCount counts bits n).get? key =
      if bits = key ∧ n ≠ 0 then some ((counts.get? key).getD 0 + n) else counts.get? key := by
  unfold addCount
  by_cases hn : n = 0
  · simp [hn]
  · rw [if_neg hn, Dictionary.alter, Dictionary.get?_insert]
    by_cases hkey : bits = key <;> simp [hkey, hn]

theorem total_eq_sum (counts : Dictionary ℕ) : total counts = (counts.entries.map (·.2)).sum := by
  rw [total, List.sum_eq_foldl, List.foldl_map]

theorem total_addCount (counts : Dictionary ℕ) (bits : String) (n : ℕ) :
    total (addCount counts bits n) = total counts + n := by
  unfold addCount
  split
  · rename_i hn
    rw [hn, Nat.add_zero]
  · rw [total_eq_sum, total_eq_sum, counts.sum_values_alter]

theorem total_appendCounts (b : Buffer) (counts : List (String × ℕ)) :
    total (b.appendCounts counts).counts = total b.counts + (counts.map (·.2)).sum := by
  induction counts generalizing b with
  | nil => rfl
  | cons e counts ih =>
    have hstep : total (b.appendCount e.1 e.2).counts = total b.counts + e.2 := total_addCount b.counts e.1 e.2
    change total ((b.appendCount e.1 e.2).appendCounts counts).counts = _
    rw [ih, hstep, List.map_cons, List.sum_cons, Nat.add_assoc]

theorem total_merge (b other : Buffer) :
    total (b.merge other).counts = total b.counts + other.measurements.length := by
  change total (other.measurements.foldl (fun counts bits => addCount counts bits 1) b.counts) = total b.counts + _
  generalize b.counts = counts
  induction other.measurements generalizing counts with
  | nil => rfl
  | cons bits outcomes ih =>
    rw [List.foldl_cons, ih, total_addCount, List.length_cons, Nat.add_assoc, Nat.add_comm 1]

/-- The words that are read add up as words do, outcome by outcome. -/
theorem words_addCount (counts : Dictionary ℕ) (bits key : String) {n : ℕ} (hn : n ≠ 0) :
    (words (addCount counts bits n)).get? key =
      if bits = key then some (Word.wrap (((words counts).get? key).getD 0 + Word.wrap n))
      else (words counts).get? key := by
  rw [get?_words, get?_addCount, get?_words]
  by_cases hkey : bits = key
  · cases hcount : counts.get? key with
    | none => simp [hkey, hn]
    | some c => simp [hkey, hn, Word.wrap_add_wrap]
  · simp [hkey]

/-- The words of a histogram and the histogram itself have the same sum, as words are added up. -/
theorem wordTotal_words (counts : Dictionary ℕ) : wordTotal (words counts) = wordTotal counts := by
  rw [wordTotal, wordTotal, total_eq_sum, total_eq_sum]
  rw [← Word.wrap_sum (counts.entries.map (·.2)), List.map_map]
  change Word.wrap ((counts.entries.map fun e => (e.1, Word.wrap e.2)).map (·.2)).sum = _
  rw [List.map_map]
  rfl

namespace Counted

variable {b : Buffer}

theorem count_eq (h : b.Counted) (bits : String) : b.count bits = b.measurements.count bits := by
  rw [count, h bits]
  split
  · rfl
  · rename_i hnever
    exact (List.count_eq_zero_of_not_mem hnever).symm

theorem entry (h : b.Counted) {e : String × ℕ} (he : e ∈ b.counts.entries) :
    e.1 ∈ b.measurements ∧ b.measurements.count e.1 = e.2 := by
  have hget := b.counts.get?_eq_some_iff.mpr he
  rwa [h e.1, Option.ite_none_right_eq_some, Option.some.injEq] at hget

theorem ne_zero (h : b.Counted) {e : String × ℕ} (he : e ∈ b.counts.entries) : e.2 ≠ 0 := by
  obtain ⟨hmem, hcount⟩ := h.entry he
  rw [← hcount]
  exact Nat.ne_of_gt (List.count_pos_iff.mpr hmem)

theorem keys_perm (h : b.Counted) : b.counts.keys.Perm b.measurements.dedup := by
  refine (List.perm_ext_iff_of_nodup b.counts.nodup_keys b.measurements.nodup_dedup).mpr fun bits => ?_
  rw [b.counts.mem_keys, h bits, List.mem_dedup]
  simp

theorem total_eq (h : b.Counted) : total b.counts = b.measurements.length := by
  have hvalues : b.counts.entries.map (·.2) = b.counts.keys.map (b.measurements.count ·) := by
    rw [Dictionary.keys, List.map_map]
    exact List.map_congr_left fun e he => (h.entry he).2.symm
  rw [total_eq_sum, hvalues, (h.keys_perm.map _).sum_eq]
  exact List.sum_map_count_dedup_eq_length b.measurements

theorem shots_eq (h : b.Counted) : b.shots = Word.wrap b.measurements.length := congrArg Word.wrap h.total_eq

theorem new (name : String) (size : ℕ) : (Buffer.new name size).Counted := fun _ => rfl

theorem reset (b : Buffer) : b.reset.Counted := fun _ => rfl

/-- Recording an outcome any number of times, none included, keeps the counts the histogram. -/
theorem appendCount (h : b.Counted) (bits : String) (n : ℕ) : (b.appendCount bits n).Counted := by
  intro key
  change (addCount b.counts bits n).get? key = if key ∈ b.measurements ++ List.replicate n bits then
    some ((b.measurements ++ List.replicate n bits).count key) else none
  have hcount : (b.counts.get? key).getD 0 = b.measurements.count key := h.count_eq key
  rw [get?_addCount, hcount, h key, List.count_append, List.count_replicate]
  by_cases hrecorded : bits = key ∧ n ≠ 0
  · obtain ⟨rfl, hn⟩ := hrecorded
    simp [hn]
  · have hnew : key ∉ List.replicate n bits := by
      rw [List.mem_replicate]
      exact fun hmem => hrecorded ⟨hmem.2.symm, hmem.1⟩
    have hzero : (if bits == key then n else 0) = 0 := by
      rw [← List.count_replicate]
      exact List.count_eq_zero_of_not_mem hnew
    rw [if_neg hrecorded, hzero]
    simp [hnew]

theorem appendCounts {l : List (String × ℕ)} (h : b.Counted) :
    (b.appendCounts l).Counted := by
  induction l generalizing b with
  | nil => exact h
  | cons e l ih => exact ih (h.appendCount e.1 e.2)

end Counted

/-- Taking over outcomes records them one after another. -/
theorem merge_eq_foldl (b other : Buffer) : b.merge other = other.measurements.foldl append b := by
  have hfold : ∀ (outcomes : List String) (b : Buffer), outcomes.foldl append b = { b with
      measurements := b.measurements ++ outcomes
      counts := outcomes.foldl (fun counts bits => addCount counts bits 1) b.counts } := by
    intro outcomes
    induction outcomes with
    | nil =>
      rintro ⟨name, size, measurements, counts, info, children⟩
      simp
    | cons bits outcomes ih =>
      intro b
      rw [List.foldl_cons, ih]
      simp [append, appendCount]
  exact (hfold other.measurements b).symm

theorem Counted.merge {b : Buffer} (h : b.Counted) (other : Buffer) : (b.merge other).Counted := by
  rw [merge_eq_foldl]
  induction other.measurements generalizing b with
  | nil => exact h
  | cons bits outcomes ih => exact ih (h.appendCount bits 1)

/-- The buffers made from empty ones by recording outcomes, taking over buffers made the same way,
and storing entries and children. -/
inductive Recorded : Buffer → Prop
  | new (name : String) (size : ℕ) : Recorded (.new name size)
  | append {b : Buffer} (bits : String) (hb : Recorded b) : Recorded (b.append bits)
  | appendCount {b : Buffer} (bits : String) (n : ℕ) (hb : Recorded b) : Recorded (b.appendCount bits n)
  | replaceCounts {b : Buffer} (counts : Dictionary ℕ) (hb : Recorded b) : Recorded (b.replaceCounts counts)
  | merge {b other : Buffer} (hb : Recorded b) (hother : Recorded other) : Recorded (b.merge other)
  | absorb {b other : Buffer} (hb : Recorded b) (hother : Recorded other) : Recorded (b.absorb other)
  | reset {b : Buffer} (hb : Recorded b) : Recorded b.reset
  | setInfo {b : Buffer} (key : String) (value : Info) (hb : Recorded b) : Recorded (b.setInfo key value)
  | attach {b : Buffer} (children : List Buffer) (hb : Recorded b) : Recorded (b.attach children)

theorem Recorded.counted {b : Buffer} (hb : b.Recorded) : b.Counted := by
  induction hb with
  | new name size => exact Counted.new name size
  | append bits _ h => exact h.appendCount bits 1
  | appendCount bits n _ h => exact h.appendCount bits n
  | replaceCounts counts => exact (Counted.reset _).appendCounts
  | @merge _ other _ _ h => exact h.merge other
  -- entries and children are stored beside the outcomes
  | @absorb _ other _ _ h => exact h.merge other
  | reset => exact Counted.reset _
  | setInfo _ _ _ h => exact h
  | attach _ _ h => exact h

/-- The buffer `b'` is `b` with the outcomes of `other` behind its own and the counts of both added
up; only entries may differ besides. -/
structure TakesOver (b other b' : Buffer) : Prop where
  measurements : b'.measurements = b.measurements ++ other.measurements
  count : ∀ bits, b'.count bits = b.count bits + other.count bits
  rest : b' = { b with measurements := b'.measurements, counts := b'.counts, info := b'.info }

theorem takesOver_merge (b : Buffer) {other : Buffer} (h : other.Counted) : b.TakesOver other (b.merge other) where
  measurements := rfl
  count bits := by
    rw [h.count_eq]
    exact getD_foldl_addCount other.measurements b.counts bits
  rest := rfl

theorem takesOver_absorb (b : Buffer) {other : Buffer} (h : other.Counted) :
    b.TakesOver other (b.absorb other) where
  measurements := rfl
  count := (b.takesOver_merge h).count
  rest := rfl

/-- However a buffer was made, its counts are the histogram of its outcomes: each count is a number
of occurrences, none of them is zero, and together they are as many as the outcomes, which the shots
are as a word. A buffer that is merged in adds its counts and has its outcomes recorded last; one that
is absorbed also puts its entries over those of the same key, and nothing else is changed. -/
theorem recorded_counts_are_histogram (b : Buffer) (hb : b.Recorded) :
    ((∀ bits, b.count bits = b.measurements.count bits) ∧ (∀ e ∈ b.counts.entries, e.2 ≠ 0) ∧
      total b.counts = b.measurements.length ∧ b.shots = Word.wrap b.measurements.length) ∧
    ∀ other : Buffer, other.Recorded →
      (b.TakesOver other (b.merge other) ∧ (b.merge other).info = b.info) ∧
      b.TakesOver other (b.absorb other) ∧
      ∀ key, (b.absorb other).info.get? key = (other.info.get? key).or (b.info.get? key) := by
  have hcounted := hb.counted
  refine ⟨⟨hcounted.count_eq, fun e he => hcounted.ne_zero he, hcounted.total_eq, hcounted.shots_eq⟩,
    fun other hother => ?_⟩
  refine ⟨⟨b.takesOver_merge hother.counted, rfl⟩, b.takesOver_absorb hother.counted, fun key => ?_⟩
  exact Dictionary.get?_insertMany_entries b.info other.info key

/-- Outcomes replaced, recorded not at all and twice, and attached below. -/
def retakenBuffer : Buffer :=
  ((((Buffer.new "q" 2).append "11").replaceCounts (.ofList [("01", 2), ("10", 0)])).appendCount "11" 0).attach
    [(Buffer.new "child" 1).append "1"]

theorem recorded_counts_are_histogram_retakenBuffer :
    retakenBuffer.Recorded ∧ (retakenBuffer.append "01").Recorded ∧
      (retakenBuffer.absorb (retakenBuffer.append "01")).count "01" = 5 ∧
      (retakenBuffer.absorb (retakenBuffer.append "01")).shots = 5 := by
  have hrecorded : retakenBuffer.Recorded :=
    .attach _ (.appendCount _ _ (.replaceCounts _ (.append _ (.new _ _))))
  have hother : (retakenBuffer.append "01").Recorded := .append _ hrecorded
  obtain ⟨⟨hcount, -, -⟩, htakes⟩ := recorded_counts_are_histogram retakenBuffer hrecorded
  obtain ⟨⟨hcount', -, -⟩, -⟩ := recorded_counts_are_histogram (retakenBuffer.append "01") hother
  obtain ⟨⟨-, -, -, hshots⟩, -⟩ := recorded_counts_are_histogram _ (hrecorded.absorb hother)
  refine ⟨hrecorded, hother, ?_, ?_⟩
  · rw [(htakes _ hother).2.1.count, hcount, hcount']
    decide
  · rw [hshots]
    decide

end Buffer

end QuantumKernels
