import QuantumKernels.Accelerator.Error
/-!
Requests to a service and what comes back. A link answers each request after a delay, from a state
of its own; the network keeps that state, the requests sent so far and the time that has passed.
-/

namespace QuantumKernels.Remote

/-- A base address and a path with one slash between them; no path leaves the address as it is. -/
def joinUrl (url path : String) : String :=
  match url.endsWith '/', path.toList with
  | true, '/' :: rest => url ++ String.ofList rest
  | true, _ | false, '/' :: _ | false, [] => url ++ path
  | false, _ => url ++ "/" ++ path

/-- A request; one with a body is a submission, one without a query. -/
structure Request where
  url : String
  path : String
  headers : Dictionary String := ∅
  body : Option String := none
deriving DecidableEq, Repr

def Request.target (r : Request) : String := joinUrl r.url r.path

def Request.isSubmission (r : Request) : Bool := r.body.isSome

/-- What comes back, after so many milliseconds. -/
structure Reply where
  delay : Nat := 0
  outcome : Except DeviceError String

structure Network (ω : Type) where
  world : ω
  /-- in the order they were sent -/
  sent : List Request := []
  /-- milliseconds -/
  clock : Nat := 0

structure Link (ω : Type) where
  answer : Request → ω → Reply × ω
  /-- the identifier of a job, given the number of requests sent before -/
  jobId : Nat → String
  /-- how a time is written -/
  timeText : Nat → String

namespace Link

variable {ω : Type}

/-- Sends a request and waits for the reply, but no longer than the timeout. -/
def send (link : Link ω) (timeout : Nat) (r : Request) (n : Network ω) :
    Except DeviceError String × Network ω :=
  let (reply, world) := link.answer r n.world
  let n := { n with world, sent := n.sent ++ [r] }
  if timeout < reply.delay then
    (.error (.timeout r.target (timeout / 1000)), { n with clock := n.clock + timeout })
  else (reply.outcome, { n with clock := n.clock + reply.delay })

/-- Whether an address names a protocol and a host. -/
def isAbsolute (url : String) : Bool :=
  match url.splitOn "://" with
  | protocol :: host :: _ => !protocol.isEmpty && !host.isEmpty
  | _ => false

/-- A link without a network: nothing is reached, and what is no address is refused before. -/
def offline : Link ω where
  answer r world :=
    let cause := if isAbsolute r.target then "error sending request" else "builder error"
    (⟨0, .error (.transport s!"{r.target}: {cause}")⟩, world)
  jobId sent := s!"job-{sent}"
  timeText clock := s!"{clock}ms"

/-- A link that gives prepared replies, one for each request. -/
def scripted (jobId timeText : Nat → String) : Link (List Reply) where
  answer _ replies := match replies with
    | [] => (⟨0, .error (.transport "no scripted reply")⟩, [])
    | reply :: rest => (reply, rest)
  jobId := jobId
  timeText := timeText

end Link

end QuantumKernels.Remote
