import QuantumKernels.Simulator.Device
import QuantumKernels.Proofs.Accelerator.Run
import QuantumKernels.Proofs.Buffer

/-!
# Batches

However a batch is run (one kernel after another, through a chain of stages, or all plans first on
the local simulator), there is one result for each kernel, in the order of the kernels and under
their names. The current buffer takes the results as its last children. A kernel that fails leaves
nothing behind.
-/
namespace QuantumKernels

/-- The buffer after a batch of that outcome: results become its last children. -/
def Buffer.withResults (b : Buffer) : Except DeviceError (List Buffer) → Buffer
  | .ok results => { b with children := b.children ++ results }
  | .error _ => b

section

variable {σ : Type}

/-- What comes of running kernels in turn, each in an empty buffer of its own: these buffers if all
runs succeed, or else the first failure. -/
inductive RunsInTurn (execute : Kernel → Run σ Unit) (size : ℕ) :
    σ → List Kernel → Except DeviceError (List Buffer) → σ → Prop
  | done (s : σ) : RunsInTurn execute size s [] (.ok []) s
  | stop {k : Kernel} {ks : List Kernel} {s s' : σ} {e : DeviceError} {own : Buffer}
      (hrun : (execute k).run (.new k.name size, s) = (.error e, own, s')) :
      RunsInTurn execute size s (k :: ks) (.error e) s'
  | more {k : Kernel} {ks : List Kernel} {s s₁ s' : σ} {own : Buffer}
      {outcome : Except DeviceError (List Buffer)}
      (hrun : (execute k).run (.new k.name size, s) = (.ok (), own, s₁))
      (h : RunsInTurn execute size s₁ ks outcome s') :
      RunsInTurn execute size s (k :: ks) (outcome.map (own :: ·)) s'

/-- A success leaves the name and the size of the buffer as they were, as all operations on buffers do. -/
def Run.KeepsRegister (action : Run σ Unit) : Prop :=
  ∀ b s b' s', action.run (b, s) = (.ok (), b', s') → b'.name = b.name ∧ b'.size = b.size

/-- The stage keeps the register of its buffer if the rest of the chain does. -/
def Stage.KeepsRegister (stage : Stage σ) : Prop :=
  ∀ rates rest, (∀ k, Run.KeepsRegister (rest k)) → ∀ k, Run.KeepsRegister (stage.around rates rest k)

/-- A batch gives one result for each kernel, named after it and as wide as the current buffer. This
has them as its last children; it is otherwise what it was, and altogether if the batch fails. -/
structure OrderedBatch (batch : List Kernel → Run σ (List Buffer)) : Prop where
  named : ∀ ks b s results b' s', (batch ks).run (b, s) = (.ok results, b', s') →
    List.Forall₂ (fun k own => own.name = k.name ∧ own.size = b.size) ks results
  current : ∀ ks b s outcome b' s', (batch ks).run (b, s) = (outcome, b', s') → b' = b.withResults outcome

variable {execute : Kernel → Run σ Unit}

theorem mapM_onOwn_run {size : ℕ} {ks : List Kernel} {s s' : σ} {outcome : Except DeviceError (List Buffer)}
    (h : RunsInTurn execute size s ks outcome s') (b : Buffer) :
    (ks.mapM fun k => Run.onOwn (.new k.name size) (execute k)).run (b, s) = (outcome, b, s') := by
  induction h with
  | done s => rfl
  | stop hrun => rw [List.mapM_cons, run_bind, Run.run_onOwn, hrun]
  | @more k ks s s₁ s' own outcome hrun _ ih =>
    rw [List.mapM_cons, run_bind, Run.run_onOwn, hrun]
    dsimp only
    rw [run_bind, ih]
    cases outcome <;> rfl

theorem exists_runsInTurn (execute : Kernel → Run σ Unit) (size : ℕ) (ks : List Kernel) (s : σ) :
    ∃ outcome s', RunsInTurn execute size s ks outcome s' := by
  induction ks generalizing s with
  | nil => exact ⟨_, s, .done s⟩
  | cons k ks ih =>
    rcases hrun : (execute k).run (.new k.name size, s) with ⟨e | ⟨⟩, own, s₁⟩
    · exact ⟨_, s₁, .stop hrun⟩
    · obtain ⟨outcome, s', hrest⟩ := ih s₁
      exact ⟨_, s', .more hrun hrest⟩

/-- Running each kernel comes to what running them in turn comes to, and nothing else changes. -/
theorem runEach_run {ks : List Kernel} {b b' : Buffer} {s s' : σ} {outcome : Except DeviceError (List Buffer)} :
    (runEach execute ks).run (b, s) = (outcome, b', s') ↔
      RunsInTurn execute b.size s ks outcome s' ∧ b' = b.withResults outcome := by
  have hrun : ∀ {outcome s'}, RunsInTurn execute b.size s ks outcome s' →
      (runEach execute ks).run (b, s) = (outcome, b.withResults outcome, s') := by
    intro outcome s' h
    rw [runEach, run_bind, Run.run_buffer]
    dsimp only
    rw [run_bind, mapM_onOwn_run h]
    cases outcome <;> rfl
  constructor
  · intro h
    obtain ⟨outcome', s₁, hturn⟩ := exists_runsInTurn execute b.size ks s
    cases (hrun hturn).symm.trans h
    exact ⟨hturn, rfl⟩
  · rintro ⟨hturn, rfl⟩
    exact hrun hturn

theorem RunsInTurn.named {size : ℕ} {ks : List Kernel} {s s' : σ}
    {outcome : Except DeviceError (List Buffer)} (h : RunsInTurn execute size s ks outcome s')
    (hkeeps : ∀ k, (execute k).KeepsRegister) (results : List Buffer) (hok : outcome = .ok results) :
    List.Forall₂ (fun k own => own.name = k.name ∧ own.size = size) ks results := by
  induction h generalizing results with
  | done s =>
    cases hok
    exact .nil
  | stop hrun => cases hok
  | @more k ks s s₁ s' own outcome hrun _ ih =>
    cases outcome with
    | error e => cases hok
    | ok owns =>
      cases hok
      exact .cons (hkeeps k _ _ _ _ hrun) (ih owns rfl)

theorem orderedBatch_runEach (hkeeps : ∀ k, (execute k).KeepsRegister) : OrderedBatch (runEach execute) where
  named _ _ _ results _ _ h := (runEach_run.mp h).1.named hkeeps results rfl
  current _ _ _ _ _ _ h := (runEach_run.mp h).2

end

namespace Buffer

theorem name_size_replaceCounts (b : Buffer) (counts : Dictionary ℕ) :
    (b.replaceCounts counts).name = b.name ∧ (b.replaceCounts counts).size = b.size :=
  name_size_appendCounts b.reset counts.entries

end Buffer

section

variable {σ : Type} {action : Run σ Unit}

theorem Sampling.repeated_keepsRegister (times : ℕ) : (repeated action times).KeepsRegister := by
  induction times with
  | zero =>
    intro b s b' s' h
    cases h
    exact ⟨rfl, rfl⟩
  | succ times ih =>
    intro b s b' s' h
    rw [repeated_succ_run] at h
    rcases hrun : action.run (.new b.name b.size, s) with ⟨e | ⟨⟩, own, s₁⟩ <;> rw [hrun] at h
    · cases h
    · exact ih (b.absorb own) s₁ b' s' h

theorem Sampling.stage_keepsRegister (times : ℕ) : (stage σ times).KeepsRegister := by
  intro rates rest _ k b s b' s' h
  rw [stage_run] at h
  rcases hrun : (repeated (rest k) times).run (b, s) with ⟨e | ⟨⟩, b₁, s₁⟩ <;> rw [hrun] at h <;> cases h
  exact repeated_keepsRegister times b s b₁ _ hrun

theorem Correction.name_size_corrected {r : Rates} {device : List Float} {b b' : Buffer}
    (h : corrected r device b = .ok b') : b'.name = b.name ∧ b'.size = b.size := by
  rcases corrected_eq_ok h with ⟨-, rfl⟩ | ⟨-, _, _, _, -, -, rfl⟩
  · exact ⟨rfl, rfl⟩
  · exact Buffer.name_size_replaceCounts _ _

theorem Correction.stage_keepsRegister (r : Rates) : (stage σ r).KeepsRegister := by
  intro rates rest hrest k b s b' s' h
  rw [stage_run] at h
  rcases hrun : (rest k).run (b, s) with ⟨e | ⟨⟩, b₁, s₁⟩ <;> rw [hrun, finish] at h
  · cases h
  · split at h <;> cases h
    have hsame := name_size_corrected ‹corrected r rates.oneBit b₁ = .ok b'›
    have hrun' := hrest k b s b₁ _ hrun
    exact ⟨hsame.1.trans hrun'.1, hsame.2.trans hrun'.2⟩

theorem Extrapolation.stage_keepsRegister (scales : List ℕ) : (stage σ scales).KeepsRegister := by
  intro rates rest _ k b s b' s' h
  obtain ⟨ts, s₁, htrials⟩ := trials_run rest k scales b.name b.size s
  rw [stage_run rates rest k scales (htrials b rfl rfl)] at h
  obtain ⟨e, hfails⟩ | ⟨first, scales', values, estimate, hadds⟩ := conclude_cases ts
  · rw [hfails] at h
    cases h
  · rw [hadds] at h
    cases h
    exact ⟨rfl, rfl⟩

theorem StageSettings.stage_keepsRegister (setting : StageSettings) : (setting.stage σ).KeepsRegister := by
  cases setting with
  | sampling times => exact Sampling.stage_keepsRegister times
  | correction rates => exact Correction.stage_keepsRegister rates
  | extrapolation scales => exact Extrapolation.stage_keepsRegister scales

theorem Accelerator.chain_keepsRegister {base : Accelerator σ} {stages : List (Stage σ)}
    (hbase : ∀ k, (base.execute k).KeepsRegister) (hstages : ∀ stage ∈ stages, stage.KeepsRegister) (k : Kernel) :
    (base.chain stages k).KeepsRegister := by
  induction stages generalizing k with
  | nil => exact hbase k
  | cons stage stages ih =>
    have hrest : ∀ k, (base.chain stages k).KeepsRegister :=
      ih fun stage' h => hstages stage' (List.mem_cons_of_mem _ h)
    exact hstages stage (List.mem_cons_self ..) base.errorRates _ hrest k

theorem Accelerator.orderedBatch_decorate {base : Accelerator σ} {stages : List (Stage σ)}
    (hbatch : OrderedBatch base.executeBatch) (hbase : ∀ k, (base.execute k).KeepsRegister)
    (hstages : ∀ stage ∈ stages, stage.KeepsRegister) : OrderedBatch (base.decorate stages).executeBatch := by
  cases stages with
  | nil => exact hbatch
  | cons stage stages => exact orderedBatch_runEach (chain_keepsRegister hbase hstages)

end

namespace LocalSettings

variable {σ : Type} {s : LocalSettings} {random : RandomSource}

theorem execute_keepsRegister (k : Kernel) : ((accelerator σ s random).execute k).KeepsRegister := by
  intro b n b' n' h
  change (Run.buffer >>= fun _ => _ : Run σ Unit).run (b, n) = _ at h
  rw [run_bind, Run.run_buffer] at h
  dsimp only at h
  cases hexecute : s.execute random k b with
  | error e =>
    rw [hexecute] at h
    cases h
  | ok b₁ =>
    rw [hexecute] at h
    cases h
    obtain ⟨p, -, h⟩ := bind_eq_ok_iff.mp hexecute
    obtain ⟨counts, -, h⟩ := bind_eq_ok_iff.mp h
    cases h
    exact Buffer.name_size_appendCounts _ _

/-- The result of the kernel at a place of a batch: an empty buffer with what its plan counts from the
seed for that place. -/
def IsResult (s : LocalSettings) (random : RandomSource) (size : ℕ) (place : Kernel × ℕ) (own : Buffer) : Prop :=
  ∃ p counts, Plan.ofKernel place.1 size s.maxQubits = .ok p ∧
    s.simulate random (s.batchSeed place.2) p = .ok counts ∧
    own = (Buffer.new place.1.name size).appendCounts counts.entries

theorem forall₂_isResult_iff {size : ℕ} {ks : List Kernel} {results : List Buffer} (first : ℕ) :
    List.Forall₂ (s.IsResult random size) (ks.zipIdx first) results ↔ ∃ plans counts,
      List.Forall₂ (fun k p => Plan.ofKernel k size s.maxQubits = .ok p) ks plans ∧
      List.Forall₂ (fun (p : Plan × ℕ) c => s.simulate random (s.batchSeed p.2) p.1 = .ok c)
        (plans.zipIdx first) counts ∧
      results = ks.zipWith (fun k c => (Buffer.new k.name size).appendCounts c.entries) counts := by
  induction ks generalizing results first with
  | nil =>
    constructor
    · rintro ⟨⟩
      exact ⟨[], [], .nil, .nil, rfl⟩
    · rintro ⟨plans, counts, -, -, rfl⟩
      exact .nil
  | cons k ks ih =>
    rw [List.zipIdx_cons]
    constructor
    · rintro (_ | ⟨⟨p, c, hplan, hcounts, rfl⟩, hrest⟩)
      obtain ⟨plans, counts, hplans, hall, rfl⟩ := (ih (first + 1)).mp hrest
      exact ⟨p :: plans, c :: counts, .cons hplan hplans, .cons hcounts hall, rfl⟩
    · rintro ⟨_, _, _ | ⟨hplan, hplans⟩, hall, rfl⟩
      rw [List.zipIdx_cons] at hall
      obtain _ | ⟨hcounts, hall⟩ := hall
      exact .cons ⟨_, _, hplan, hcounts, rfl⟩ ((ih (first + 1)).mpr ⟨_, _, hplans, hall, rfl⟩)

theorem batch_eq_ok {ks : List Kernel} {size : ℕ} {results : List Buffer} :
    s.batch random ks size = .ok results ↔ List.Forall₂ (s.IsResult random size) ks.zipIdx results := by
  rw [forall₂_isResult_iff, batch]
  simp only [bind_eq_ok_iff, mapM_eq_ok_iff]
  constructor
  · rintro ⟨plans, hplans, counts, hcounts, h⟩
    cases h
    exact ⟨plans, counts, hplans, hcounts, rfl⟩
  · rintro ⟨plans, counts, hplans, hcounts, rfl⟩
    exact ⟨plans, hplans, counts, hcounts, rfl⟩

theorem executeBatch_run (ks : List Kernel) (b : Buffer) (n : σ) :
    ((accelerator σ s random).executeBatch ks).run (b, n) =
      (s.batch random ks b.size, b.withResults (s.batch random ks b.size), n) := by
  change (Run.buffer >>= fun _ => _ : Run σ (List Buffer)).run (b, n) = _
  rw [run_bind, Run.run_buffer]
  dsimp only
  cases s.batch random ks b.size <;> rfl

theorem IsResult.named {size : ℕ} {place : Kernel × ℕ} {own : Buffer} (h : s.IsResult random size place own) :
    own.name = place.1.name ∧ own.size = size := by
  obtain ⟨p, counts, -, -, rfl⟩ := h
  exact Buffer.name_size_appendCounts _ _

theorem orderedBatch : OrderedBatch (accelerator σ s random).executeBatch where
  named ks b n results b' n' h := by
    rw [executeBatch_run] at h
    have hresults := batch_eq_ok.mp (congrArg Prod.fst h)
    have hnamed : List.Forall₂ (fun (place : Kernel × ℕ) own =>
        own.name = place.1.name ∧ own.size = b.size) ks.zipIdx results := hresults.imp fun _ _ => IsResult.named
    have hkernels : ks.zipIdx.map Prod.fst = ks := List.zipIdx_map_fst 0 ks
    rw [← hkernels, List.forall₂_map_left_iff]
    exact hnamed
  current ks b n outcome b' n' h := by
    rw [executeBatch_run] at h
    cases h
    rfl

/-- Whatever stages the simulator is put behind, its batches stay in order. -/
theorem orderedBatch_withStages (settings : List StageSettings) :
    OrderedBatch ((s.accelerator σ random).withStages settings).executeBatch :=
  Accelerator.orderedBatch_decorate orderedBatch execute_keepsRegister
    (List.forall_mem_map.mpr fun setting _ => setting.stage_keepsRegister)

end LocalSettings

/-- Batches by default, through stages and on the local simulator keep the order of their kernels and
take all results over or none. By default kernels run in turn, each in an empty buffer of its own; the
simulator counts each plan from the seed for its place. -/
theorem batch_keeps_order (σ : Type) :
    (∀ execute : Kernel → Run σ Unit,
      (∀ ks b s outcome b' s', (runEach execute ks).run (b, s) = (outcome, b', s') ↔
        RunsInTurn execute b.size s ks outcome s' ∧ b' = b.withResults outcome) ∧
      ((∀ k, (execute k).KeepsRegister) → OrderedBatch (runEach execute))) ∧
    (∀ (base : Accelerator σ) (stages : List (Stage σ)), OrderedBatch base.executeBatch →
      (∀ k, (base.execute k).KeepsRegister) → (∀ stage ∈ stages, stage.KeepsRegister) →
      OrderedBatch (base.decorate stages).executeBatch) ∧
    ∀ (settings : LocalSettings) (random : RandomSource),
      OrderedBatch (settings.accelerator σ random).executeBatch ∧
      ∀ ks b n results, (((settings.accelerator σ random).executeBatch ks).run (b, n)).1 = .ok results ↔
        List.Forall₂ (settings.IsResult random b.size) ks.zipIdx results := by
  refine ⟨fun execute => ⟨fun ks b s outcome b' s' => runEach_run, orderedBatch_runEach⟩,
    fun base stages => Accelerator.orderedBatch_decorate, fun settings random =>
      ⟨LocalSettings.orderedBatch, fun ks b n results => ?_⟩⟩
  rw [LocalSettings.executeBatch_run]
  exact LocalSettings.batch_eq_ok

/-- A device that measures as many zeros as a kernel has instructions, and refuses one without any. -/
def zeroCounter : Accelerator Unit where
  name := "zero-counter"
  defaultSize := 2
  execute k := if k.size = 0 then throw (.execution "no instruction") else Run.modifyBuffer (·.appendCount "0" k.size)

theorem zeroCounter_keepsRegister (k : Kernel) : (zeroCounter.execute k).KeepsRegister := by
  intro b s b' s' h
  change (if k.size = 0 then throw _ else Run.modifyBuffer _ : Run Unit Unit).run (b, s) = _ at h
  split at h <;> cases h
  exact ⟨rfl, rfl⟩

def measuring (name : String) (times : ℕ) : Kernel := ⟨{ name }, List.replicate times (.leaf (.measure 0 0))⟩

/-- Two kernels, each sampled twice, beside an earlier child; then a batch whose second kernel fails. -/
theorem batch_keeps_order_sampledPair :
    let device := zeroCounter.withStages [.sampling 2]
    let b := (Buffer.new "q" 2).attach [.new "earlier" 2]
    (∃ results b', (device.executeBatch [measuring "two" 2, measuring "one" 1]).run (b, ()) =
        (.ok results, b', ()) ∧ results.map Buffer.name = ["two", "one"] ∧
        results.map (·.measurements.length) = [4, 2] ∧ b' = { b with children := b.children ++ results }) ∧
      (device.executeBatch [measuring "two" 2, measuring "none" 0]).run (b, ()) =
        (.error (.execution "no instruction"), b, ()) := by
  intro device b
  have hordered : OrderedBatch device.executeBatch :=
    (batch_keeps_order Unit).2.1 zeroCounter [StageSettings.stage Unit (.sampling 2)]
      (((batch_keeps_order Unit).1 zeroCounter.execute).2 zeroCounter_keepsRegister) zeroCounter_keepsRegister
      fun stage hstage => List.mem_singleton.mp hstage ▸ StageSettings.stage_keepsRegister _
  refine ⟨⟨_, _, rfl, rfl, rfl, ?_⟩, ?_⟩
  · exact hordered.current [measuring "two" 2, measuring "one" 1] b () _ _ _ rfl
  · rfl

end QuantumKernels
