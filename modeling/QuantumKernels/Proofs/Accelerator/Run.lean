import QuantumKernels.Stage.Settings
import QuantumKernels.Proofs.FoldInPlace

/-!
# Runs, step by step

What an action makes of the current buffer and of the state outside: one equation for each of the
basic actions and for each built-in stage. Repeated sampling and extrapolation run the rest of the
chain in buffers of its own, so what the current buffer holds has no say in how that goes.
-/
namespace QuantumKernels

namespace Run

variable {σ : Type}

theorem run_buffer (b : Buffer) (s : σ) : Run.buffer.run (b, s) = (.ok b, b, s) := rfl

theorem run_onOwn (own : Buffer) (action : Run σ Unit) (b : Buffer) (s : σ) :
    (Run.onOwn own action).run (b, s) = match action.run (own, s) with
      | (.ok (), own, s) => (.ok own, b, s)
      | (.error e, _, s) => (.error e, b, s) := rfl

end Run

section

variable {σ : Type} (rates : ErrorRates) (rest : Kernel → Run σ Unit) (k : Kernel)

namespace Sampling

theorem repeated_succ_run (action : Run σ Unit) (times : ℕ) (b : Buffer) (s : σ) :
    (repeated action (times + 1)).run (b, s) = match action.run (.new b.name b.size, s) with
      | (.ok (), own, s) => (repeated action times).run (b.absorb own, s)
      | (.error e, _, s) => (.error e, b, s) := by
  rw [repeated, run_bind, Run.run_buffer]
  dsimp only
  rw [run_bind, Run.run_onOwn]
  rcases action.run (.new b.name b.size, s) with ⟨e | ⟨⟩, own, s'⟩ <;> rfl

theorem stage_run (times : ℕ) (b : Buffer) (s : σ) :
    ((stage σ times).around rates rest k).run (b, s) = match (repeated (rest k) times).run (b, s) with
      | (.ok (), b, s) => (.ok (), b.setInfo key (.ofNat times), s)
      | (.error e, b, s) => (.error e, b, s) := by
  change (repeated (rest k) times >>= fun _ => _).run (b, s) = _
  rw [run_bind]
  rcases (repeated (rest k) times).run (b, s) with ⟨e | ⟨⟩, b', s'⟩ <;> rfl

end Sampling

namespace Correction

/-- What a correction makes of a run that has ended. -/
def finish (device : List Float) (r : Rates) :
    Except DeviceError Unit × Buffer × σ → Except DeviceError Unit × Buffer × σ
  | (.ok (), b, s) => match corrected r device b with
    | .ok b => (.ok (), b, s)
    | .error e => (.error e, b, s)
  | (.error e, b, s) => (.error e, b, s)

/-- After a failure nothing is corrected. -/
theorem foldr_finish_error (device : List Float) (rs : List Rates) (e : DeviceError) (b : Buffer) (s : σ) :
    rs.foldr (finish device) (.error e, b, s) = (.error e, b, s) := by
  induction rs with
  | nil => rfl
  | cons r rs ih => rw [List.foldr_cons, ih, finish]

theorem stage_run (r : Rates) (b : Buffer) (s : σ) :
    ((stage σ r).around rates rest k).run (b, s) = finish rates.oneBit r ((rest k).run (b, s)) := by
  change (rest k >>= fun _ => _).run (b, s) = _
  rw [run_bind]
  rcases (rest k).run (b, s) with ⟨e | ⟨⟩, b', s'⟩
  · rfl
  · dsimp only [finish]
    rw [run_bind, Run.run_buffer]
    dsimp only
    cases corrected r rates.oneBit b' <;> rfl

/-- A buffer without shots stays as it is; otherwise rates were found and gave a distribution, whose shares
are the new counts. -/
theorem corrected_eq_ok {device : List Float} {r : Rates} {b b' : Buffer} (h : corrected r device b = .ok b') :
    b.shots = 0 ∧ b' = b ∨ b.shots ≠ 0 ∧ ∃ up down distribution, r.resolve device = .ok (up, down) ∧
      Readout.correct (Buffer.words b.counts) up down = .ok distribution ∧
      b' = ((b.setInfo rawKey (.real (Buffer.expectation b.counts))).setInfo fixedKey
        (.real (Readout.parity distribution))).replaceCounts (shares distribution b.shots) := by
  unfold corrected at h
  split at h <;> rename_i hshots
  · cases h
    exact .inl ⟨hshots, rfl⟩
  · obtain ⟨⟨up, down⟩, hrates, h⟩ := bind_eq_ok_iff.mp h
    obtain ⟨distribution, hcorrect, h⟩ := bind_eq_ok_iff.mp h
    cases h
    exact .inr ⟨hshots, up, down, distribution, hrates, mapError_eq_ok.mp hcorrect, rfl⟩

end Correction

namespace Extrapolation

theorem trial_run {folded : Kernel} (name : String) (size : ℕ) {scale : ℕ} (hfold : k.foldInPlace scale = .ok folded)
    (b : Buffer) (s : σ) : (trial rest k name size scale).run (b, s) =
      match (rest folded).run (.new name size, s) with
      | (outcome, own, s) => (.ok ⟨scale, outcome.map fun _ => own⟩, b, s) := by
  rw [trial, hfold]
  dsimp only
  rw [run_bind]
  change (match (Run.onOwn (.new name size) (rest folded)).run (b, s) with
    | (outcome, n) => ((.ok (⟨scale, outcome⟩ : Trial) : Except DeviceError Trial), n)) = _
  rw [Run.run_onOwn]
  rcases (rest folded).run (.new name size, s) with ⟨e | ⟨⟩, own, s'⟩ <;> rfl

/-- The scales are tried in turn: at each the rest of the chain runs once, on the kernel folded at that
scale, in an empty buffer of its own and in the state that the trial before has left. -/
inductive TriedInTurn (name : String) (size : ℕ) : List ℕ → σ → List Trial → σ → Prop
  | done (s : σ) : TriedInTurn name size [] s [] s
  | more {scale : ℕ} {scales : List ℕ} {folded : Kernel} {s s₁ s' : σ} {outcome : Except DeviceError Unit}
      {own : Buffer} {ts : List Trial} (hfold : k.foldInPlace scale = .ok folded)
      (hrun : (rest folded).run (.new name size, s) = (outcome, own, s₁))
      (h : TriedInTurn name size scales s₁ ts s') :
      TriedInTurn name size (scale :: scales) s (⟨scale, outcome.map fun _ => own⟩ :: ts) s'

theorem exists_triedInTurn (name : String) (size : ℕ) (scales : List ℕ) (s : σ) :
    ∃ ts s', TriedInTurn rest k name size scales s ts s' := by
  induction scales generalizing s with
  | nil => exact ⟨[], s, .done s⟩
  | cons scale scales ih =>
    -- folding is never refused
    obtain ⟨folded, hfold, -⟩ := k.exists_foldInPlace scale
    rcases hrun : (rest folded).run (.new name size, s) with ⟨outcome, own, s₁⟩
    obtain ⟨ts, s', hrest⟩ := ih s₁
    exact ⟨_, s', .more hfold hrun hrest⟩

variable {rest k} in
/-- The buffer is put back after each trial. -/
theorem TriedInTurn.trials_run {scales : List ℕ} {ts : List Trial} {b : Buffer} {s s' : σ}
    (h : TriedInTurn rest k b.name b.size scales s ts s') : (trials rest k scales).run (b, s) = (.ok ts, b, s') := by
  rw [trials, run_bind, Run.run_buffer]
  dsimp only
  induction h with
  | done s => rfl
  | more hfold hrun _ ih =>
    rw [List.mapM_cons, run_bind, trial_run rest k _ _ hfold, hrun]
    dsimp only
    rw [run_bind, ih]
    rfl

/-- The trials of a kernel from one state, for all buffers of a name and size. -/
theorem trials_run (scales : List ℕ) (name : String) (size : ℕ) (s : σ) :
    ∃ ts s', ∀ b : Buffer, b.name = name → b.size = size →
      (trials rest k scales).run (b, s) = (.ok ts, b, s') := by
  obtain ⟨ts, s', h⟩ := exists_triedInTurn rest k name size scales s
  refine ⟨ts, s', ?_⟩
  rintro b rfl rfl
  exact h.trials_run

/-- The trials decide by themselves whether they have a conclusion and what it adds to a buffer. -/
theorem conclude_cases (ts : List Trial) : (∃ e, ∀ b, conclude ts b = .error e) ∨
    ∃ first scales values estimate, ∀ b, conclude ts b =
      .ok ((((b.absorb first).setInfo scalesKey (.reals scales)).setInfo valuesKey (.reals values)).setInfo
        Buffer.expectationKey (.real estimate)) := by
  unfold conclude
  dsimp only
  split
  · rename_i scale first other more hruns
    split
    · exact .inl ⟨_, fun b => rfl⟩
    · exact .inr ⟨first, _, _, _, fun b => rfl⟩
  · split
    · exact .inl ⟨_, fun b => rfl⟩
    · exact .inl ⟨_, fun b => rfl⟩

theorem stage_run (scales : List ℕ) {ts : List Trial} {b : Buffer} {s s' : σ}
    (htrials : (trials rest k scales).run (b, s) = (.ok ts, b, s')) :
    ((stage σ scales).around rates rest k).run (b, s) = match conclude ts b with
      | .ok b => (.ok (), b, s')
      | .error e => (.error e, b, s') := by
  change (trials rest k scales >>= fun _ => _).run (b, s) = _
  rw [run_bind, htrials]
  dsimp only
  rw [run_bind, Run.run_buffer]
  dsimp only
  cases conclude ts b <;> rfl

end Extrapolation

end

namespace StageSettings

/-- The corrections before the first other stage. -/
def outerCorrections : List StageSettings → List Correction.Rates
  | correction r :: settings => r :: outerCorrections settings
  | _ => []

/-- The chain from the first other stage on. -/
def behindCorrections : List StageSettings → List StageSettings
  | correction _ :: settings => behindCorrections settings
  | settings => settings

theorem head?_behindCorrections (settings : List StageSettings) (r : Correction.Rates) :
    (behindCorrections settings).head? ≠ some (.correction r) := by
  induction settings with
  | nil => nofun
  | cons setting settings ih =>
    cases setting with
    | sampling times => nofun
    | correction r' => exact ih
    | extrapolation scales => nofun

theorem corrections_of_head? {settings : List StageSettings}
    (hfirst : ∀ r, settings.head? ≠ some (.correction r)) :
    outerCorrections settings = [] ∧ behindCorrections settings = settings := by
  cases settings with
  | nil => exact ⟨rfl, rfl⟩
  | cons setting settings =>
    cases setting with
    | sampling times => exact ⟨rfl, rfl⟩
    | correction r => exact absurd rfl (hfirst r)
    | extrapolation scales => exact ⟨rfl, rfl⟩

end StageSettings

namespace Accelerator

open StageSettings

variable {σ : Type}

theorem withStages_cons (base : Accelerator σ) (setting : StageSettings) (settings : List StageSettings)
    (k : Kernel) : (base.withStages (setting :: settings)).execute k =
      (setting.stage σ).around base.errorRates (base.withStages settings).execute k := rfl

/-- Corrections in front of a chain act on the buffer that the rest of the chain has run in. -/
theorem withStages_run (base : Accelerator σ) (settings : List StageSettings) (k : Kernel) (b : Buffer)
    (s : σ) : ((base.withStages settings).execute k).run (b, s) =
      (outerCorrections settings).foldr (Correction.finish base.oneBitRates)
        (((base.withStages (behindCorrections settings)).execute k).run (b, s)) := by
  induction settings with
  | nil => rfl
  | cons setting settings ih =>
    cases setting with
    | sampling times => rfl
    | extrapolation scales => rfl
    | correction r =>
      rw [withStages_cons, stage, Correction.stage_run, ih]
      rfl

end Accelerator

end QuantumKernels
