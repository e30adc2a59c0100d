import QuantumKernels.Kernel.Error
import QuantumKernels.Options
/-!
What can go wrong on an accelerator. The texts come from the device at hand.
-/

namespace QuantumKernels

inductive DeviceError where
  | kernel (error : KernelError)
  | registry (error : RegistryError)
  | bufferSize (size : Nat) (device : String)
  | configuration (text : String)
  | unsupported (text : String)
  | execution (text : String)
  /-- a remote call that took too long -/
  | timeout (target : String) (seconds : Nat)
  /-- the network or the service refused -/
  | transport (text : String)
  /-- a wrong number of results -/
  | mismatch (expected got : Nat)
  | insufficient (text : String)
  /-- a text that is no document of the kind wanted -/
  | malformed
  | unavailable
deriving DecidableEq, Repr

namespace DeviceError

def message : DeviceError → String
  | kernel e => e.message
  | registry e => e.message
  | bufferSize size device => s!"Invalid buffer size {size} for accelerator '{device}'"
  | configuration text => s!"Configuration error: {text}"
  | unsupported text => s!"Unsupported feature: {text}"
  | execution text => s!"Execution failed: {text}"
  | timeout target seconds => s!"Remote call to {target} timed out after {seconds}s"
  | transport text => s!"Transport error: {text}"
  | mismatch expected got => s!"Expected {expected} result buffers, backend returned {got}"
  | insufficient text => s!"Insufficient data: {text}"
  | malformed => "Serialization error"
  | unavailable => "I/O error"

/-- A simulation that has come to an end in its midst. -/
def crash (reason : String) : DeviceError := .execution s!"simulation task failed: {reason}"

/-- Whether trying again may help. -/
def isTransient : DeviceError → Bool
  | timeout .. | transport _ => true
  | _ => false

end DeviceError

end QuantumKernels
