import QuantumKernels.Json.Reading
/-!
Reports: the document a service answers with, one result for each experiment, with the number of
times each outcome key was seen.
-/

namespace QuantumKernels.Wire

open Json

structure ExperimentResult where
  name : String
  shots : Nat := 0
  success : Bool := true
  counts : Dictionary Nat := ∅
deriving DecidableEq, Repr

structure Report where
  jobId : Option String := none
  device : Option String := none
  success : Bool := true
  results : List ExperimentResult := []
deriving DecidableEq, Repr

def ExperimentResult.toJson (r : ExperimentResult) : Json :=
  .record [
    ("header", .record [("name", .text r.name)]),
    ("shots", ofNat r.shots),
    ("success", .bool r.success),
    ("data", .record [("counts", .record (r.counts.map ofNat).entries)])]

def Report.toJson (r : Report) : Json :=
  .record (
    (r.jobId.map fun s => ("job_id", Json.text s)).toList
    ++ (r.device.map fun s => ("backend_name", Json.text s)).toList
    ++ [("success", .bool r.success), ("results", listOf ExperimentResult.toJson r.results)])

def ExperimentResult.countsReading : Reading (Dictionary Nat) :=
  asRecord ["counts"] fun f => f.orElse "counts" (asDictionary asWord) ∅

def ExperimentResult.reading : Reading ExperimentResult :=
  asRecord ["header", "shots", "success", "data"] fun f => do
    return {
      name := ← f.required "header" (asRecord ["name"] fun h => h.required "name" asText)
      shots := ← f.orElse "shots" asWord 0
      success := ← f.orElse "success" asBool true
      counts := ← f.orElse "data" countsReading ∅ }

def Report.reading : Reading Report :=
  asRecord ["job_id", "backend_name", "success", "results"] fun f => do
    return {
      jobId := ← f.orElse "job_id" (asOption asText) none
      device := ← f.orElse "backend_name" (asOption asText) none
      success := ← f.orElse "success" asBool true
      results := ← f.orElse "results" (asList ExperimentResult.reading) [] }

end QuantumKernels.Wire
