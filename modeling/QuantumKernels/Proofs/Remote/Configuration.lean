import QuantumKernels.Proofs.Options
import QuantumKernels.Remote.JobService

/-!
# Configuring a device of the job service

A configuration is read in two halves: the job service takes its own settings first, the dispatch its
timeout and retries after it. Each half takes all or nothing. If only the second one refuses, the
configuration is rejected as a whole, but what the service took from it stays.
-/
namespace QuantumKernels

namespace Remote

open Options

/-- The service refuses its half of the options: a number is none, or is zero. -/
def JobService.Refuses (options : Options) : Prop :=
  options.Malformed "shots" (natural 64) ∨ options.Malformed "n-qubits" (natural 64) ∨
    options.value? "shots" (natural 64) = some 0 ∨ options.value? "n-qubits" (natural 64) = some 0

def Settings.Refuses (options : Options) : Prop :=
  options.Malformed timeoutKey (natural 64) ∨ options.Malformed attemptsKey (natural 32) ∨
    options.Malformed backoffKey (natural 64)

instance (options : Options) : Decidable (JobService.Refuses options) :=
  inferInstanceAs (Decidable (_ ∨ _ ∨ _ ∨ _))

instance (options : Options) : Decidable (Settings.Refuses options) :=
  inferInstanceAs (Decidable (_ ∨ _ ∨ _))

/-- The service with all that a configuration sets of it. -/
def JobService.overriddenBy (s : JobService) (config : DeviceConfig) : JobService where
  endpoint := config.endpoint.getD s.endpoint
  token := config.token.or s.token
  device := (config.options.get? "backend").getD s.device
  shots := (config.options.value? "shots" (natural 64)).getD s.shots
  qubits := (config.options.value? "n-qubits" (natural 64)).getD s.qubits

/-- The dispatch with all that options set of it; there is always one attempt at least. -/
def Settings.overriddenBy (s : Settings) (options : Options) : Settings where
  timeout := ((options.value? timeoutKey (natural 64)).map (· * 1000)).getD s.timeout
  retry := {
    attempts := ((options.value? attemptsKey (natural 32)).map (max · 1)).getD s.retry.attempts
    backoff := (options.value? backoffKey (natural 64)).getD s.retry.backoff }

theorem JobService.configure_eq_ok {s s' : JobService} {config : DeviceConfig} :
    s.configure config = .ok s' ↔ ¬ JobService.Refuses config.options ∧ s' = s.overriddenBy config := by
  rw [JobService.Refuses, not_or, not_or, not_or, ← exists_read_eq_ok_iff, ← exists_read_eq_ok_iff,
    overriddenBy, configure]
  simp only [bind_eq_ok_iff, mapError_eq_ok]
  constructor
  · rintro ⟨shots, hshots, qubits, hqubits, h⟩
    rw [value?_of_read hshots, value?_of_read hqubits]
    split at h
    · cases h
    · split at h <;> cases h
      exact ⟨⟨⟨shots, hshots⟩, ⟨qubits, hqubits⟩, ‹_›, ‹_›⟩, rfl⟩
  · rintro ⟨⟨⟨shots, hshots⟩, ⟨qubits, hqubits⟩, hsome, hsome'⟩, rfl⟩
    rw [value?_of_read hshots] at hsome ⊢
    rw [value?_of_read hqubits] at hsome' ⊢
    refine ⟨shots, hshots, qubits, hqubits, ?_⟩
    rw [if_neg hsome, if_neg hsome']
    rfl

theorem Settings.apply_eq_ok {s s' : Settings} {options : Options} :
    s.apply options = .ok s' ↔ ¬ Settings.Refuses options ∧ s' = s.overriddenBy options := by
  rw [Settings.Refuses, not_or, not_or, ← exists_read_eq_ok_iff, ← exists_read_eq_ok_iff,
    ← exists_read_eq_ok_iff, overriddenBy, apply]
  simp only [bind_eq_ok_iff]
  constructor
  · rintro ⟨timeout, htimeout, attempts, hattempts, backoff, hbackoff, h⟩
    cases h
    rw [value?_of_read htimeout, value?_of_read hattempts, value?_of_read hbackoff]
    exact ⟨⟨⟨timeout, htimeout⟩, ⟨attempts, hattempts⟩, ⟨backoff, hbackoff⟩⟩, rfl⟩
  · rintro ⟨⟨⟨timeout, htimeout⟩, ⟨attempts, hattempts⟩, ⟨backoff, hbackoff⟩⟩, rfl⟩
    rw [value?_of_read htimeout, value?_of_read hattempts, value?_of_read hbackoff]
    exact ⟨timeout, htimeout, attempts, hattempts, backoff, hbackoff, rfl⟩

namespace Device

def Refuses (options : Options) : Prop := JobService.Refuses options ∨ Settings.Refuses options

instance (options : Options) : Decidable (Refuses options) := inferInstanceAs (Decidable (_ ∨ _))

/-- The device with all that it takes from a configuration, accepted or not. -/
def taking (d : Device JobService) (config : DeviceConfig) : Device JobService where
  own := if JobService.Refuses config.options then d.own else d.own.overriddenBy config
  settings := if Refuses config.options then d.settings else d.settings.overriddenBy config.options

theorem configure_eq (d : Device JobService) (config : DeviceConfig) :
    ∃ outcome, d.configure JobService.configure config = (outcome, d.taking config) ∧
      ((∃ e, outcome = .error e) ↔ Refuses config.options) := by
  rw [configure, taking]
  cases hown : d.own.configure config with
  | error e =>
    have hrefuses : JobService.Refuses config.options := by
      by_contra hnot
      rw [JobService.configure_eq_ok.mpr ⟨hnot, rfl⟩] at hown
      cases hown
    have hany : Refuses config.options := .inl hrefuses
    exact ⟨.error e, by rw [if_pos hrefuses, if_pos hany], fun _ => hany, fun _ => ⟨e, rfl⟩⟩
  | ok own =>
    obtain ⟨htakes, rfl⟩ := JobService.configure_eq_ok.mp hown
    dsimp only
    cases hsettings : d.settings.apply config.options with
    | error e =>
      have hrefuses : Settings.Refuses config.options := by
        by_contra hnot
        rw [Settings.apply_eq_ok.mpr ⟨hnot, rfl⟩] at hsettings
        cases hsettings
      have hany : Refuses config.options := .inr hrefuses
      exact ⟨.error (.registry e), by rw [if_neg htakes, if_pos hany], fun _ => hany, fun _ => ⟨_, rfl⟩⟩
    | ok settings =>
      obtain ⟨htakes', rfl⟩ := Settings.apply_eq_ok.mp hsettings
      have hnone : ¬ Refuses config.options := not_or.mpr ⟨htakes, htakes'⟩
      exact ⟨.ok (), by rw [if_neg htakes, if_neg hnone], nofun, fun hany => absurd hany hnone⟩

/-- The device after configurations that are tried one after another. -/
def configureAll (d : Device JobService) (history : List DeviceConfig) : Device JobService :=
  history.foldl (fun d config => (d.configure JobService.configure config).2) d

theorem configureAll_eq (d : Device JobService) (history : List DeviceConfig) :
    d.configureAll history = {
      own := (history.filter fun config => ¬ JobService.Refuses config.options).foldl
        JobService.overriddenBy d.own
      settings := (history.filter fun config => ¬ Refuses config.options).foldl
        (fun s config => s.overriddenBy config.options) d.settings } := by
  induction history generalizing d with
  | nil => rfl
  | cons config history ih =>
    obtain ⟨outcome, hconfigure, -⟩ := d.configure_eq config
    have hstep : d.configureAll (config :: history) =
      (d.configure JobService.configure config).2.configureAll history := rfl
    rw [hstep, hconfigure, ih, taking, List.filter_cons, List.filter_cons]
    by_cases hown : JobService.Refuses config.options <;> by_cases hall : Refuses config.options <;>
      simp [hown, hall]

end Device

/-- Exactly when a rejected configuration changes nothing: the service refuses its half of it, or
would take nothing new. Timeout and retries are kept in any case. So what a device has become by all
configurations that were tried is made of the accepted ones, but the service's part of it also of
those that the dispatch alone has refused. -/
theorem rejected_configuration_keeps_iff (d : Device JobService) (config : DeviceConfig) :
    ∃ outcome d', d.configure JobService.configure config = (outcome, d') ∧
      ((∃ e, outcome = .error e) ↔ JobService.Refuses config.options ∨ Settings.Refuses config.options) ∧
      ((∃ e, outcome = .error e) → d'.settings = d.settings ∧
        (d'.own = d.own ↔ JobService.Refuses config.options ∨ d.own.overriddenBy config = d.own)) ∧
      ∀ history, d.configureAll history = {
        own := (history.filter fun config => ¬ JobService.Refuses config.options).foldl
          JobService.overriddenBy d.own
        settings := (history.filter fun config =>
          ¬ (JobService.Refuses config.options ∨ Settings.Refuses config.options)).foldl
          (fun s config => s.overriddenBy config.options) d.settings } := by
  obtain ⟨outcome, hconfigure, hrejected⟩ := d.configure_eq config
  refine ⟨outcome, _, hconfigure, hrejected, fun h => ?_, d.configureAll_eq⟩
  rw [Device.taking, if_pos (hrejected.mp h)]
  refine ⟨rfl, ?_⟩
  by_cases hown : JobService.Refuses config.options
  · simp [hown]
  · simp [hown]

/-- A new width for the service, and a timeout that is no number. -/
def lateTimeout : DeviceConfig where
  name := "ibm"
  extra := .ofList [("n-qubits", .int 5), ("timeout-seconds", .text "soon")]

/-- It is rejected, and the width has changed. -/
theorem rejected_configuration_keeps_iff_lateTimeout :
    ∃ e d', (⟨{}, {}⟩ : Device JobService).configure JobService.configure lateTimeout = (.error e, d') ∧
      d'.settings = {} ∧ d'.own ≠ {} ∧ d'.own.qubits = 5 := by
  have htakes : ¬ JobService.Refuses lateTimeout.options := by decide +kernel
  have hrefuses : Settings.Refuses lateTimeout.options := by decide +kernel
  have hwidth : ((⟨{}, {}⟩ : Device JobService).configure JobService.configure lateTimeout).2.own.qubits = 5 := by
    decide +kernel
  obtain ⟨outcome, d', hconfigure, hrejected, hkeeps, -⟩ := rejected_configuration_keeps_iff ⟨{}, {}⟩ lateTimeout
  obtain ⟨e, rfl⟩ := hrejected.mpr (.inr hrefuses)
  obtain ⟨hsettings, hown⟩ := hkeeps ⟨e, rfl⟩
  rw [hconfigure] at hwidth
  refine ⟨e, d', hconfigure, hsettings, fun hsame => ?_, hwidth⟩
  rcases hown.mp hsame with hservice | hnothing
  · exact htakes hservice
  · exact absurd (congrArg JobService.qubits hnothing) (by decide +kernel)

end Remote

end QuantumKernels
