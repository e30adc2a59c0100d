import QuantumKernels.Proofs.Json.Nesting
import QuantumKernels.Wire.Report

/-!
# Reports from their text

The text of a report reads back as the report, as long as its numbers fit machine words.
-/
namespace QuantumKernels.Wire

open Json

/-- The numbers of a result fit machine words. -/
structure ExperimentResult.Writable (r : ExperimentResult) : Prop where
  shots : r.shots ≤ wordLimit
  counts : ∀ e ∈ r.counts.entries, e.2 ≤ wordLimit

def Report.Writable (r : Report) : Prop := ∀ result ∈ r.results, result.Writable

namespace ExperimentResult

variable {r : ExperimentResult}

theorem depth_counts (r : ExperimentResult) (nesting : ℕ) :
    (Json.record (r.counts.map ofNat).entries).depth ≤ nesting + 1 := by
  refine depth_record_le_succ.mpr fun e he => ?_
  obtain ⟨e', -, rfl⟩ := List.mem_map.mp he
  exact Nat.zero_le nesting

theorem reading_toJson (h : r.Writable) (nesting : ℕ) :
    ExperimentResult.reading (nesting + 3) r.toJson = some r := by
  have hcounts : asDictionary asWord (nesting + 1) (.record (r.counts.map ofNat).entries) = some r.counts :=
    (recovers_dictionary fun n _ e he => recovers_word (h.counts e he) n).iff r.counts |>.mpr
      ⟨r.depth_counts nesting, rfl⟩
  simp [ExperimentResult.reading, countsReading, toJson, asRecord, Fields.required, Fields.orElse, asText, asBool,
    asWord_ofNat h.shots, hcounts]

theorem legible_toJson (h : r.Writable) : Legible r.toJson := by
  have hheader : Legible (.record [("name", .text r.name)]) := .record (by simp [Legible.text])
  have hcounts : Legible (.record (r.counts.map ofNat).entries) := by
    refine .record fun e he => ?_
    obtain ⟨e', he', rfl⟩ := List.mem_map.mp he
    exact legible_ofNat (h.counts e' he')
  refine .record ?_
  have hdata : Legible (.record [("counts", .record (r.counts.map ofNat).entries)]) := .record (by simp [hcounts])
  simp [hheader, hdata, legible_ofNat h.shots, Legible.bool]

end ExperimentResult

namespace Report

variable {r : Report}

theorem reading_toJson (h : r.Writable) (nesting : ℕ) : Report.reading (nesting + 5) r.toJson = some r := by
  have hresults : asList ExperimentResult.reading (nesting + 4) (listOf ExperimentResult.toJson r.results) =
      some r.results :=
    asList_listOf fun result hresult => ExperimentResult.reading_toJson (h result hresult) nesting
  obtain ⟨jobId, device, success, results⟩ := r
  cases jobId <;> cases device <;>
    simp [Report.reading, toJson, asRecord, Fields.orElse, asOption, asText, asBool, hresults]

theorem legible_toJson (h : r.Writable) : Legible r.toJson := by
  have hresults : Legible (listOf ExperimentResult.toJson r.results) :=
    legible_listOf fun result hresult => ExperimentResult.legible_toJson (h result hresult)
  refine .record ?_
  cases r.jobId <;> cases r.device <;> simp [Legible.text, Legible.bool, hresults]

theorem readAs_compact (h : r.Writable) : readAs Report.reading r.toJson.compact = some r := by
  have hread : Json.read r.toJson.compact = some r.toJson := read_compact (legible_toJson h)
  rw [readAs, hread, Option.bind_some]
  exact reading_toJson h 122

end Report

end QuantumKernels.Wire
