import QuantumKernels.Remote.JobService
import QuantumKernels.Proofs.Buffer
import QuantumKernels.Proofs.Outcome

/-!
# What is read of a report

Each result of a report becomes a buffer of its own, at the place that it has in the report: it has the
name of the result, and the result's counts for the outcomes that its keys stand for.
-/
namespace QuantumKernels.Remote.JobService

open Wire

/-- An entry of a report stands for a counted outcome. -/
def Reads (width : ℕ) (entry outcome : String × ℕ) : Prop :=
  readOutcome entry.1 width = .ok outcome.1 ∧ outcome.2 = entry.2

theorem foldlM_outcomes {width : ℕ} {step : Buffer → String × ℕ → Except DeviceError Buffer}
    (hstep : ∀ b entry b', step b entry = .ok b' ↔
      ∃ outcome, Reads width entry outcome ∧ b' = b.appendCount outcome.1 outcome.2)
    {entries : List (String × ℕ)} {b own : Buffer} :
    entries.foldlM step b = .ok own ↔
      ∃ counted, List.Forall₂ (Reads width) entries counted ∧ own = b.appendCounts counted := by
  induction entries generalizing b with
  | nil =>
    rw [List.foldlM_nil]
    constructor
    · rintro ⟨⟩
      exact ⟨[], .nil, rfl⟩
    · rintro ⟨_, ⟨⟩, rfl⟩
      rfl
  | cons entry entries ih =>
    rw [foldlM_cons_eq_ok_iff]
    constructor
    · rintro ⟨b', hentry, hrest⟩
      obtain ⟨outcome, hread, rfl⟩ := (hstep b entry b').mp hentry
      obtain ⟨counted, hcounted, rfl⟩ := ih.mp hrest
      exact ⟨outcome :: counted, .cons hread hcounted, rfl⟩
    · rintro ⟨_, hcounted, rfl⟩
      obtain ⟨outcome, counted, hread, hrest, rfl⟩ := List.forall₂_cons_left_iff.mp hcounted
      exact ⟨_, (hstep b entry _).mpr ⟨outcome, hread, rfl⟩, ih.mpr ⟨counted, hrest, rfl⟩⟩

theorem decodeResult_eq_ok {width : ℕ} {r : ExperimentResult} {own : Buffer} :
    decodeResult width r = .ok own ↔ r.success = true ∧
      ∃ counted, List.Forall₂ (Reads width) r.counts.entries counted ∧
        own = (Buffer.new r.name width).appendCounts counted := by
  rw [decodeResult]
  split_ifs with hsuccess
  · rw [and_iff_right hsuccess]
    refine foldlM_outcomes fun b entry b' => ?_
    dsimp only
    split
    · rename_i bits hkey
      constructor
      · rintro ⟨⟩
        exact ⟨(bits, entry.2), ⟨hkey, rfl⟩, rfl⟩
      · rintro ⟨⟨bits', count⟩, ⟨hkey', rfl⟩, rfl⟩
        rw [hkey] at hkey'
        cases hkey'
        rfl
    · rename_i fault hkey
      refine ⟨nofun, ?_⟩
      rintro ⟨outcome, ⟨hkey', -⟩, -⟩
      rw [hkey] at hkey'
      cases hkey'
  · simp [hsuccess]

/-- How often a result reports an outcome. -/
def reported (r : ExperimentResult) (width : ℕ) (bits : String) : ℕ :=
  r.counts.entries.foldr (fun e n => (if (readOutcome e.1 width).toOption = some bits then e.2 else 0) + n) 0

theorem occurrences_of_reads {width : ℕ} {entries counted : List (String × ℕ)}
    (h : List.Forall₂ (Reads width) entries counted) (bits : String) :
    Buffer.occurrences counted bits =
      entries.foldr (fun e n => (if (readOutcome e.1 width).toOption = some bits then e.2 else 0) + n) 0 := by
  induction h with
  | nil => rfl
  | @cons entry outcome entries counted hread _ ih =>
    obtain ⟨hkey, hcount⟩ := hread
    rw [Buffer.occurrences_cons, ih, hcount, List.foldr_cons, hkey]
    simp only [Except.toOption, Option.some.injEq]

/-- A buffer of that width holds what a result reports, under the name of the result. -/
structure Holds (width : ℕ) (r : ExperimentResult) (own : Buffer) : Prop where
  name : own.name = r.name
  size : own.size = width
  count : ∀ bits, own.count bits = reported r width bits
  measurements : ∀ bits, own.measurements.count bits = reported r width bits

theorem holds_of_decodeResult {width : ℕ} {r : ExperimentResult} {own : Buffer}
    (h : decodeResult width r = .ok own) : Holds width r own := by
  obtain ⟨-, counted, hcounted, rfl⟩ := decodeResult_eq_ok.mp h
  have hsame := (Buffer.new r.name width).name_size_appendCounts counted
  have hreported := occurrences_of_reads hcounted
  refine ⟨hsame.1, hsame.2, fun bits => ?_, fun bits => ?_⟩
  · rw [Buffer.count_appendCounts, hreported bits]
    exact Nat.zero_add _
  · rw [Buffer.count_measurements_appendCounts, hreported bits]
    exact Nat.zero_add _

/-- The buffer with the device and the job that it comes from. -/
def labelled (s : JobService) (report : Report) (own : Buffer) : Buffer :=
  let own := own.setInfo "device" (.text (report.device.getD s.device))
  report.jobId.elim own fun id => own.setInfo "job-id" (.text id)

theorem Holds.labelled {width : ℕ} {r : ExperimentResult} {own : Buffer} (h : Holds width r own)
    (s : JobService) (report : Report) : Holds width r (s.labelled report own) := by
  unfold JobService.labelled
  cases report.jobId <;> exact ⟨h.name, h.size, h.count, h.measurements⟩

theorem exists_read_of_decode {s : JobService} {b : Buffer} {response : String} {results : List Buffer}
    (h : s.decode b response = .ok results) : ∃ report, Json.readAs Report.reading response = some report := by
  rw [decode] at h
  split at h
  · cases h
  · exact ⟨_, ‹_›⟩

theorem exists_decodeResult_iff {width : ℕ} {r : ExperimentResult} :
    (∃ own, decodeResult width r = .ok own) ↔
      r.success = true ∧ ∀ e ∈ r.counts.entries, ∃ bits, readOutcome e.1 width = .ok bits := by
  have hentry : ∀ e : String × ℕ, (∃ outcome, Reads width e outcome) ↔ ∃ bits, readOutcome e.1 width = .ok bits :=
    fun e => ⟨fun ⟨outcome, hkey, _⟩ => ⟨outcome.1, hkey⟩, fun ⟨bits, hkey⟩ => ⟨(bits, e.2), hkey, rfl⟩⟩
  simp only [decodeResult_eq_ok, ← hentry, ← exists_forall₂_iff]
  constructor
  · rintro ⟨_, hsuccess, counted, hcounted, -⟩
    exact ⟨hsuccess, counted, hcounted⟩
  · rintro ⟨hsuccess, counted, hcounted⟩
    exact ⟨_, hsuccess, counted, hcounted, rfl⟩

section

variable {s : JobService} {b : Buffer} {response : String} {report : Report} {results : List Buffer}

theorem decode_eq_ok (hread : Json.readAs Report.reading response = some report) :
    s.decode b response = .ok results ↔ report.success = true ∧ List.Forall₂
      (fun r result => ∃ own, decodeResult b.size r = .ok own ∧ s.labelled report own = result)
      report.results results := by
  rw [decode, hread]
  dsimp only
  split_ifs with hsuccess
  · change report.results.mapM
      (fun r => decodeResult b.size r >>= fun own => .ok (s.labelled report own)) = _ ↔ _
    simp only [mapM_eq_ok_iff, bind_eq_ok_iff, Except.ok.injEq, hsuccess, true_and]
  · simp [hsuccess]

/-- Whether a report can be read is decided key by key. -/
theorem exists_decode_iff (hread : Json.readAs Report.reading response = some report) :
    (∃ results, s.decode b response = .ok results) ↔ report.success = true ∧
      ∀ r ∈ report.results, r.success = true ∧ ∀ e ∈ r.counts.entries, ∃ bits, readOutcome e.1 b.size = .ok bits := by
  have hresult : ∀ r, (∃ result own, decodeResult b.size r = .ok own ∧ s.labelled report own = result) ↔
      r.success = true ∧ ∀ e ∈ r.counts.entries, ∃ bits, readOutcome e.1 b.size = .ok bits := by
    intro r
    rw [← exists_decodeResult_iff]
    exact ⟨fun ⟨_, own, hown, _⟩ => ⟨own, hown⟩, fun ⟨own, hown⟩ => ⟨_, own, hown, rfl⟩⟩
  simp only [decode_eq_ok hread, exists_and_left, exists_forall₂_iff, hresult]

theorem length_of_decode (hread : Json.readAs Report.reading response = some report)
    (h : s.decode b response = .ok results) : results.length = report.results.length :=
  ((decode_eq_ok hread).mp h).2.length_eq.symm

theorem holds_of_decode (hread : Json.readAs Report.reading response = some report)
    (h : s.decode b response = .ok results) : List.Forall₂ (Holds b.size) report.results results := by
  refine ((decode_eq_ok hread).mp h).2.imp ?_
  rintro r _ ⟨own, hown, rfl⟩
  exact (holds_of_decodeResult hown).labelled s _

end

end QuantumKernels.Remote.JobService
