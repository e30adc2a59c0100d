import QuantumKernels.Remote.Dispatch
import QuantumKernels.Wire.Compiler
import QuantumKernels.Wire.Outcome
import QuantumKernels.Wire.Report
/-!
The job service: kernels travel as one job, and the answer is a report or the identifier of a job
whose report can be fetched. The token is shown to the service and nowhere else.
-/

namespace QuantumKernels.Remote

structure JobService where
  endpoint : String := "https://api.quantum-computing.ibm.com"
  token : Option String := none
  device : String := "ibmq_qasm_simulator"
  shots : Nat := Wire.defaultShots
  qubits : Nat := 32
deriving DecidableEq, Repr

namespace JobService

def name : String := "ibm"

def description : String := "Remote QObject accelerator"

def jobsPath : String := "/v1/jobs"

def describe (s : JobService) : String :=
  Text.describeRecord "IbmBackend" [
    ("endpoint", Text.describeText s.endpoint),
    ("token", Text.describeOption (fun _ => Text.describeText "[REDACTED]") s.token),
    ("device", Text.describeText s.device),
    ("shots", toString s.shots),
    ("n_qubits", toString s.qubits)]

def headers (s : JobService) : Dictionary String :=
  let known : Dictionary String := .ofList [("Content-Type", "application/json")]
  s.token.elim known fun token => known.insert "Authorization" ("Bearer " ++ token)

/-- The settings with those of a configuration; bad options change nothing. -/
def configure (s : JobService) (config : DeviceConfig) : Except DeviceError JobService := do
  let options := config.options
  let shots ← (options.read "shots" (Options.natural 64)).mapError .registry
  let qubits ← (options.read "n-qubits" (Options.natural 64)).mapError .registry
  if shots = some 0 then .error (.configuration "shots must be positive")
  else if qubits = some 0 then .error (.configuration "n-qubits must be positive")
  else return {
    endpoint := config.endpoint.getD s.endpoint
    token := config.token.or s.token
    device := (options.get? "backend").getD s.device
    shots := shots.getD s.shots
    qubits := qubits.getD s.qubits }

/-- The job for kernels on a register as wide as the buffer. -/
def encode (s : JobService) (id : String) (b : Buffer) (kernels : List Kernel) :
    Except DeviceError String :=
  if s.token.isNone then .error (.configuration "no API token configured for 'ibm'")
  else match Wire.Job.ofKernels id s.shots b.size kernels with
    | .error e => .error (.execution s!"cannot marshal kernels: {e.message}")
    | .ok job => .ok (Wire.Compiler.seal { device := s.device } job)

/-- An answer without results names a job to fetch them from. -/
def followUp (submission : String) : Except DeviceError (Option String) :=
  match Json.readAs Json.asDocument submission with
  | none => .error .malformed
  | some answer =>
    if (answer.field? "results").isSome then .ok none
    else match (answer.field? "id").or (answer.field? "job_id") with
      | some (.text id) => .ok (some (jobsPath ++ "/" ++ id ++ "/results"))
      | _ => .error (.execution "submission response carries neither results nor a job id")

/-- The buffer of an experiment that succeeded. -/
def decodeResult (size : Nat) (r : Wire.ExperimentResult) : Except DeviceError Buffer :=
  if r.success then
    r.counts.entries.foldlM (fun b (key, count) =>
      match Wire.readOutcome key size with
      | .ok bits => .ok (b.appendCount bits count)
      | .error fault => .error (.execution s!"experiment '{r.name}': {(WireError.parse fault).message}"))
      (Buffer.new r.name size)
  else .error (.execution s!"experiment '{r.name}' failed")

/-- The buffers of a report, with the device and the job they come from. -/
def decode (s : JobService) (b : Buffer) (response : String) : Except DeviceError (List Buffer) :=
  match Json.readAs Wire.Report.reading response with
  | none => .error .malformed
  | some report =>
    if report.success then
      report.results.mapM fun r => do
        let own ← decodeResult b.size r
        let own := own.setInfo "device" (.text (report.device.getD s.device))
        return report.jobId.elim own fun id => own.setInfo "job-id" (.text id)
    else .error (.execution ("job " ++ report.jobId.getD "<unknown>" ++ " failed"))

def service (s : JobService) : Service where
  name := name
  description := description
  url := s.endpoint
  postPath := jobsPath
  headers := s.headers
  defaultSize := s.qubits
  encode := s.encode
  followUp := followUp
  decode := s.decode

end JobService

end QuantumKernels.Remote
