import QuantumKernels.Accelerator.Decorated

/-!
# Stages around a device that has stages of its own

A decorated device is a device again, and stages around it are the front part of one longer chain.
The outer stages cannot tell the difference: they see the error rates of the same device. Batches
of the innermost device are used only if there are no stages on any level.
-/
namespace QuantumKernels

namespace Accelerator

variable {σ : Type}

theorem chain_decorate (base : Accelerator σ) (outer inner : List (Stage σ)) :
    (base.decorate inner).chain outer = base.chain (outer ++ inner) := by
  have hrates : (base.decorate inner).errorRates = base.errorRates := rfl
  have hend : (base.decorate inner).execute = base.chain inner := rfl
  rw [chain, hrates, hend, chain, chain, List.foldr_append]

theorem chainName_decorate (base : Accelerator σ) (outer inner : List (Stage σ)) :
    (base.decorate inner).chainName outer = base.chainName (outer ++ inner) := by
  have hend : (base.decorate inner).name = base.chainName inner := rfl
  rw [chainName, hend, chainName, chainName, List.foldr_append]

/-- The batches of the device itself are left only where both lists are empty. -/
theorem executeBatch_decorate (base : Accelerator σ) (outer inner : List (Stage σ)) :
    ((base.decorate inner).decorate outer).executeBatch =
      (base.decorate (outer ++ inner)).executeBatch := by
  cases outer with
  | nil => rfl
  | cons stage outer =>
    change runEach ((base.decorate inner).chain (stage :: outer)) =
      runEach (base.chain (stage :: outer ++ inner))
    rw [chain_decorate]

theorem decorate_decorate (base : Accelerator σ) (outer inner : List (Stage σ)) :
    (base.decorate inner).decorate outer = base.decorate (outer ++ inner) := by
  have hname := chainName_decorate base outer inner
  have hexecute := chain_decorate base outer inner
  have hbatch := executeBatch_decorate base outer inner
  cases base
  simp_all [decorate]

end Accelerator

/-- What a device is asked to do, and the buffer it is given for it. -/
inductive Call where
  | execute (kernel : Kernel) (buffer : Buffer)
  | executeBatch (kernels : List Kernel) (buffer : Buffer)

/-- Does the action and notes the call behind those before it. -/
def Run.noting {σ α : Type} (call : Buffer → Call) (action : Run σ α) : Run (σ × List Call) α :=
  ExceptT.mk fun (b, s, calls) =>
    let (outcome, b', s') := action.run (b, s)
    (outcome, b', s', calls ++ [call b])

namespace Accelerator

variable {σ : Type}

/-- The device with a list of all its calls beside its state. -/
def recorded (base : Accelerator σ) : Accelerator (σ × List Call) where
  name := base.name
  description := base.description
  model := base.model
  defaultSize := base.defaultSize
  accepts := base.accepts
  oneBitRates := base.oneBitRates
  twoBitRates := base.twoBitRates
  connectivity := base.connectivity
  isRemote := base.isRemote
  passes := base.passes
  execute k := (base.execute k).noting (.execute k)
  executeBatch ks := (base.executeBatch ks).noting (.executeBatch ks)

/-- Stages around a device with stages are one chain: the name is the same, and from every buffer
and state a kernel and a batch come to the same outcome, buffer and state by the same calls of the
device. -/
theorem nested_decoration_is_flat (base : Accelerator σ) (outer inner : List (Stage (σ × List Call))) :
    ((base.recorded.decorate inner).decorate outer).name =
      (base.recorded.decorate (outer ++ inner)).name ∧
    ∀ (b : Buffer) (s : σ) (calls : List Call),
      (∀ k, (((base.recorded.decorate inner).decorate outer).execute k).run (b, s, calls) =
        ((base.recorded.decorate (outer ++ inner)).execute k).run (b, s, calls)) ∧
      ∀ ks, (((base.recorded.decorate inner).decorate outer).executeBatch ks).run (b, s, calls) =
        ((base.recorded.decorate (outer ++ inner)).executeBatch ks).run (b, s, calls) := by
  have hflat := base.recorded.decorate_decorate outer inner
  refine ⟨congrArg Accelerator.name hflat, fun b s calls => ⟨fun k => ?_, fun ks => ?_⟩⟩
  · rw [hflat]
  · rw [hflat]

end Accelerator

end QuantumKernels
