import QuantumKernels.Proofs.Histogram
import QuantumKernels.Proofs.Remote.Decoding
import QuantumKernels.Proofs.Wire.OutcomeKey
import QuantumKernels.Proofs.Wire.Report

/-!
# Shots of a report

No shot is lost between a report and the buffers read of it. Keys that spell one number stand for one
outcome, and their counts add up; a key that stands for no outcome of the buffer's width, or a failure
anywhere in the report, leaves no buffer at all.
-/
namespace QuantumKernels

namespace Wire

/-- Slot by slot the outcome has the bits of the key's number. -/
def StandsFor (key outcome : String) : Prop :=
  ∃ value ∈ keyValue? key, ∀ i < outcome.length,
    outcome.toList[i]? = some (if value.testBit i then '1' else '0')

instance (key outcome : String) : Decidable (StandsFor key outcome) :=
  inferInstanceAs (Decidable (∃ value ∈ keyValue? key, ∀ i < outcome.length,
    outcome.toList[i]? = some (if value.testBit i then '1' else '0')))

/-- A key that is read in some slots is read as the one outcome of that width that it stands for. -/
theorem readOutcome_eq_iff_standsFor {key read outcome : String} {width : ℕ} (hread : readOutcome key width = .ok read)
    (hwidth : outcome.length = width) : read = outcome ↔ StandsFor key outcome := by
  obtain ⟨value, hvalue, -, rfl⟩ := readOutcome_eq_ok_iff.mp hread
  have hstands : StandsFor key outcome ↔ outcome.toList = bitChars value width := by
    rw [StandsFor, hvalue, ← hwidth, ← String.length_toList, eq_bitChars_iff]
    simp
  rw [hstands, ← String.toList_inj, String.toList_ofList, eq_comm]

end Wire

namespace Remote.JobService

open Wire

/-- What a buffer has of a result: every shot of it, at the outcome that its key stands for. -/
structure Conserves (width : ℕ) (r : ExperimentResult) (own : Buffer) : Prop where
  name : own.name = r.name
  size : own.size = width
  count : ∀ outcome : String, outcome.length = width → own.count outcome =
    ((r.counts.entries.filter fun e => StandsFor e.1 outcome).map (·.2)).sum
  total : Buffer.total own.counts = (r.counts.entries.map (·.2)).sum
  shots : own.shots = Word.wrap (r.counts.entries.map (·.2)).sum
  counted : own.Counted
  outcomes : ∀ outcome ∈ own.measurements, outcome.length = width ∧ ∀ c ∈ outcome.toList, c = '0' ∨ c = '1'

theorem reported_eq_sum {r : ExperimentResult} {width : ℕ}
    (hread : ∀ e ∈ r.counts.entries, ∃ outcome, readOutcome e.1 width = .ok outcome) {outcome : String}
    (hwidth : outcome.length = width) :
    reported r width outcome = ((r.counts.entries.filter fun e => StandsFor e.1 outcome).map (·.2)).sum := by
  rw [reported]
  generalize r.counts.entries = entries at hread
  induction entries with
  | nil => rfl
  | cons e entries ih =>
    obtain ⟨own, hown⟩ := hread e (by simp)
    have hstands := readOutcome_eq_iff_standsFor hown hwidth
    rw [List.foldr_cons, ih fun d hd => hread d (by simp [hd]), hown, List.filter_cons]
    by_cases h : own = outcome
    · simp [Except.toOption, hstands.mp h, h]
    · simp [Except.toOption, mt hstands.mpr h, h]

theorem conserves_of_decodeResult {width : ℕ} {r : ExperimentResult} {own : Buffer}
    (h : decodeResult width r = .ok own) : Conserves width r own := by
  have hholds := holds_of_decodeResult h
  have hread := (exists_decodeResult_iff.mp ⟨own, h⟩).2
  obtain ⟨-, counted, hcounted, rfl⟩ := decodeResult_eq_ok.mp h
  have htotal : Buffer.total ((Buffer.new r.name width).appendCounts counted).counts =
      (r.counts.entries.map (·.2)).sum := by
    have hcounts : r.counts.entries.map (·.2) = counted.map (·.2) :=
      map_eq_map_iff_forall₂.mpr (hcounted.imp fun _ _ hentry => hentry.2.symm)
    rw [Buffer.total_appendCounts, hcounts]
    exact Nat.zero_add _
  refine ⟨hholds.name, hholds.size, fun outcome hwidth => ?_, htotal, congrArg Word.wrap htotal,
    (Buffer.Counted.new _ _).appendCounts, ?_⟩
  · rw [hholds.count, reported_eq_sum hread hwidth]
  · intro outcome houtcome
    rw [Buffer.measurements_appendCounts] at houtcome
    obtain ⟨entry, hentry, houtcome⟩ := List.mem_flatMap.mp houtcome
    obtain ⟨e, -, hkey, -⟩ := exists_mem_of_forall₂ hcounted hentry
    obtain ⟨value, -, -, hbits⟩ := readOutcome_eq_ok_iff.mp hkey
    rw [List.eq_of_mem_replicate houtcome, hbits, String.length_ofList, String.toList_ofList]
    exact ⟨length_bitChars value width, fun c hc => zero_or_one_of_mem_bitChars hc⟩

/-- The device and the job are noted beside the outcomes. -/
theorem Conserves.labelled {width : ℕ} {r : ExperimentResult} {own : Buffer} (h : Conserves width r own)
    (s : JobService) (report : Report) : Conserves width r (s.labelled report own) := by
  unfold JobService.labelled
  cases report.jobId <;> exact ⟨h.name, h.size, h.count, h.total, h.shots, h.counted, h.outcomes⟩

theorem exists_readOutcome_iff {key : String} {width : ℕ} : (∃ outcome, readOutcome key width = .ok outcome) ↔
    ∃ value, keyValue? key = some value ∧ value < 2 ^ width := by
  constructor
  · rintro ⟨outcome, hread⟩
    obtain ⟨value, hvalue, hlt, -⟩ := readOutcome_eq_ok_iff.mp hread
    exact ⟨value, hvalue, hlt⟩
  · rintro ⟨value, hvalue, hlt⟩
    exact ⟨_, readOutcome_eq_ok_iff.mpr ⟨value, hvalue, hlt, rfl⟩⟩

/-- Nothing in the report has failed, and every key is that of a number with no bit beyond so many slots. -/
structure Decodable (report : Report) (width : ℕ) : Prop where
  success : report.success = true
  succeeded : ∀ r ∈ report.results, r.success = true
  keys : ∀ r ∈ report.results, ∀ e ∈ r.counts.entries, ∃ value, keyValue? e.1 = some value ∧ value < 2 ^ width

theorem exists_decode_iff_decodable {s : JobService} {b : Buffer} {response : String} {report : Report}
    (hread : Json.readAs Report.reading response = some report) :
    (∃ results, s.decode b response = .ok results) ↔ Decodable report b.size := by
  simp only [exists_decode_iff hread, exists_readOutcome_iff]
  constructor
  · rintro ⟨hsuccess, hresults⟩
    exact ⟨hsuccess, fun r hr => (hresults r hr).1, fun r hr => (hresults r hr).2⟩
  · rintro ⟨hsuccess, hsucceeded, hkeys⟩
    exact ⟨hsuccess, fun r hr => ⟨hsucceeded r hr, hkeys r hr⟩⟩

/-- A response is decoded exactly if it is a report in which nothing has failed and all keys can be read
in the slots of the buffer. Then there is one buffer for each result, in the order of the report, with its
name, the width of the buffer and all its shots, added up as words are: an outcome is counted as often as
all keys together that stand for it. -/
theorem decode_conserves_shots (s : JobService) (b : Buffer) (response : String) :
    match s.decode b response with
    | .ok results => ∃ report, Json.readAs Report.reading response = some report ∧ Decodable report b.size ∧
        List.Forall₂ (Conserves b.size) report.results results
    | .error _ => ∀ report, Json.readAs Report.reading response = some report → ¬ Decodable report b.size := by
  cases hdecode : s.decode b response with
  | ok results =>
    obtain ⟨report, hread⟩ := exists_read_of_decode hdecode
    refine ⟨report, hread, (exists_decode_iff_decodable hread).mp ⟨results, hdecode⟩, ?_⟩
    refine ((decode_eq_ok hread).mp hdecode).2.imp ?_
    rintro r _ ⟨own, hown, rfl⟩
    exact (conserves_of_decodeResult hown).labelled s report
  | error e =>
    intro report hread hdecodable
    obtain ⟨results, hresults⟩ := (exists_decode_iff_decodable hread).mpr hdecodable
    rw [hdecode] at hresults
    cases hresults

/-- One outcome under two keys, and another that was not seen. -/
def twoSpellings : Report where
  results := [{ name := "k", counts := .ofList [("0x0", 0), ("0x01", 3), ("0x1", 4)] }]

theorem twoSpellings_writable : twoSpellings.Writable := by
  have hfour : ∀ n ≤ 4, n ≤ Json.wordLimit := by decide
  refine List.forall_mem_singleton.mpr ⟨Nat.zero_le _, ?_⟩
  exact List.forall_mem_cons.mpr ⟨hfour 0 (by decide), List.forall_mem_cons.mpr ⟨hfour 3 (by decide),
    List.forall_mem_singleton.mpr (hfour 4 (by decide))⟩⟩

theorem decodable_twoSpellings : Decodable twoSpellings 2 where
  success := rfl
  succeeded := List.forall_mem_singleton.mpr rfl
  keys := List.forall_mem_singleton.mpr (List.forall_mem_cons.mpr ⟨⟨0, by decide, by decide⟩,
    List.forall_mem_cons.mpr ⟨⟨1, by decide, by decide⟩, List.forall_mem_singleton.mpr ⟨1, by decide, by decide⟩⟩⟩)

theorem decode_conserves_shots_twoSpellings : ∃ own,
    ({} : JobService).decode (.new "q" 2) twoSpellings.toJson.compact = .ok [own] ∧ own.count "10" = 7 ∧
      own.count "00" = 0 ∧ own.shots = 7 ∧ own.measurements.length = 7 := by
  have hread := Report.readAs_compact twoSpellings_writable
  generalize twoSpellings.toJson.compact = text at hread ⊢
  have hconserves := decode_conserves_shots {} (.new "q" 2) text
  obtain ⟨results, hresults⟩ :=
    (exists_decode_iff_decodable (b := .new "q" 2) (s := {}) hread).mpr decodable_twoSpellings
  rw [hresults] at hconserves
  obtain ⟨report, hread', -, hall⟩ := hconserves
  obtain rfl : twoSpellings = report := Option.some.inj (hread.symm.trans hread')
  obtain ⟨own, rest, hown, hrest, rfl⟩ := List.forall₂_cons_left_iff.mp hall
  obtain rfl := List.forall₂_nil_left_iff.mp hrest
  have htotal : Buffer.total own.counts = 7 := hown.total
  refine ⟨own, hresults, ?_, ?_, hown.shots, hown.counted.total_eq.symm.trans htotal⟩
  · rw [hown.count "10" rfl]
    decide
  · rw [hown.count "00" rfl]
    decide

end Remote.JobService

end QuantumKernels
