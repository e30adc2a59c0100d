import QuantumKernels.Remote.Link
import QuantumKernels.Accelerator.Basic
import QuantumKernels.Accelerator.Config
/-!
Remote dispatch: kernels are submitted to a service, which answers with results or with a place to
fetch them from. A submission is sent again only if it cannot have been accepted; a query is sent
again after any transient failure. Nothing of a failed dispatch reaches the buffer.
-/

namespace QuantumKernels.Remote

/-- How often a request is tried, and the pause in between in milliseconds. -/
structure RetryPolicy where
  attempts : Nat := 1
  backoff : Nat := 500
deriving DecidableEq, Repr

namespace RetryPolicy

def failFast : RetryPolicy := {}

/-- At least one attempt. -/
def bounded (attempts backoff : Nat) : RetryPolicy := ⟨max attempts 1, backoff⟩

def toJson (p : RetryPolicy) : Json :=
  .record [
    ("max_attempts", .ofNat p.attempts),
    ("backoff", .record [
      ("secs", .ofNat (p.backoff / 1000)), ("nanos", .ofNat (p.backoff % 1000 * 1000000))])]

end RetryPolicy

structure Settings where
  /-- milliseconds -/
  timeout : Nat := 60000
  retry : RetryPolicy := {}
deriving DecidableEq, Repr

/-- A number of milliseconds, in seconds from one second on. -/
def describeDuration (ms : Nat) : String :=
  if ms = 0 then "0ns"
  else if ms < 1000 then s!"{ms}ms"
  else
    let digits := (toString (1000 + ms % 1000)).toList.tail
    let fraction := (digits.reverse.dropWhile (· == '0')).reverse
    toString (ms / 1000) ++ (if fraction.isEmpty then "" else "." ++ String.ofList fraction) ++ "s"

def Settings.describe (s : Settings) : String :=
  Text.describeRecord "RemoteSettings" [
    ("timeout", describeDuration s.timeout),
    ("retry", Text.describeRecord "RetryPolicy" [
      ("max_attempts", toString s.retry.attempts), ("backoff", describeDuration s.retry.backoff)])]

/-- The half of a remote accelerator that depends on the service. -/
structure Service where
  name : String
  description : String := ""
  url : String
  postPath : String
  headers : Dictionary String := ∅
  model : ExecutionModel := .gateModel
  defaultSize : Nat
  accepts : Nat → Bool := fun size => 0 < size && size ≤ defaultSize
  connectivity : List (Nat × Nat) := []
  /-- the body of a submission, under an identifier -/
  encode : (id : String) → Buffer → List Kernel → Except DeviceError String
  /-- where results are fetched from, if the answer to a submission does not hold them -/
  followUp : String → Except DeviceError (Option String) := fun _ => .ok none
  /-- one buffer for each kernel, in the order submitted -/
  decode : Buffer → String → Except DeviceError (List Buffer)

/-- Whether a request that failed so may be sent again: a submission that timed out may have been
accepted. -/
def mayRetry (r : Request) (e : DeviceError) : Bool :=
  match e with
  | .transport _ => true
  | .timeout .. => !r.isSubmission
  | _ => false

section

variable {ω : Type} (link : Link ω)

/-- Sends a request, and again after a pause, at most so many times more. -/
def call (s : Settings) (r : Request) : (retries : Nat) → Network ω → Except DeviceError String × Network ω
  | 0, n => link.send s.timeout r n
  | retries + 1, n =>
    match link.send s.timeout r n with
    | (.ok text, n) => (.ok text, n)
    | (.error e, n) =>
      if mayRetry r e then call s r retries { n with clock := n.clock + s.retry.backoff }
      else (.error e, n)

/-- A request as a step of a dispatch. -/
def request (s : Settings) (r : Request) : ExceptT DeviceError (StateM (Network ω)) String :=
  ExceptT.mk fun n => call link s r (s.retry.attempts - 1) n

/-- Submits kernels and gives their results, which have to be as many. -/
def dispatch (s : Settings) (service : Service) (b : Buffer) (kernels : List Kernel) :
    ExceptT DeviceError (StateM (Network ω)) (List Buffer) := do
  let id := link.jobId (← get).sent.length
  let body ← ExceptT.mk (pure (service.encode id b kernels))
  let base : Request := { url := service.url, path := service.postPath, headers := service.headers }
  let answer ← request link s { base with body := some body }
  let answer ← match ← ExceptT.mk (pure (service.followUp answer)) with
    | none => pure answer
    | some path => request link s { base with path }
  let results ← ExceptT.mk (pure (service.decode b answer))
  if results.length = kernels.length then return results
  else throw (.mismatch kernels.length results.length)

/-- A dispatch from the current buffer, which it leaves as it is. -/
def submit (s : Settings) (service : Service) (kernels : List Kernel) : Run (Network ω) (List Buffer) :=
  ExceptT.mk fun (b, n) =>
    let (outcome, n) := (dispatch link s service b kernels).run n
    (outcome, (b, n))

def submittedKey : String := "submitted-at"

/-- Notes in the current buffer when it was submitted. -/
def stamp : Run (Network ω) Unit :=
  modify fun (b, n) => (b.setInfo submittedKey (.text (link.timeText n.clock)), n)

def accelerator (s : Settings) (service : Service) : Accelerator (Network ω) where
  name := service.name
  description := service.description
  model := service.model
  defaultSize := service.defaultSize
  accepts := service.accepts
  connectivity := service.connectivity
  isRemote := true
  execute k := do
    for result in (← submit link s service [k]).head? do
      Run.modifyBuffer (·.absorb result)
    stamp link
  executeBatch ks := do
    let results ← submit link s service ks
    Run.modifyBuffer (·.attach results)
    stamp link
    return results

end

def timeoutKey : String := "timeout-seconds"
def attemptsKey : String := "max-attempts"
def backoffKey : String := "backoff-millis"

/-- The settings with what the options set. -/
def Settings.apply (s : Settings) (options : Options) : Except RegistryError Settings := do
  let timeout ← options.read timeoutKey (Options.natural 64)
  let attempts ← options.read attemptsKey (Options.natural 32)
  let backoff ← options.read backoffKey (Options.natural 64)
  return {
    timeout := (timeout.map (· * 1000)).getD s.timeout
    retry := {
      attempts := (attempts.map (max · 1)).getD s.retry.attempts
      backoff := backoff.getD s.retry.backoff } }

/-- A service's own settings and those of the dispatch. -/
structure Device (β : Type) where
  own : β
  settings : Settings := {}

/-- Configures the service first; its new settings stay even if those of the dispatch are refused. -/
def Device.configure {β : Type} (configure : β → DeviceConfig → Except DeviceError β) (d : Device β)
    (config : DeviceConfig) : Except DeviceError Unit × Device β :=
  match configure d.own config with
  | .error e => (.error e, d)
  | .ok own =>
    match d.settings.apply config.options with
    | .error e => (.error (.registry e), { d with own })
    | .ok settings => (.ok (), ⟨own, settings⟩)

def describeDevice (service : String) (s : Settings) : String :=
  Text.describeRecord "RemoteAccelerator"
    [("backend", Text.describeText service), ("settings", s.describe)] true

end QuantumKernels.Remote
