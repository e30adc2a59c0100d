import QuantumKernels.Optimizer
import QuantumKernels.Proofs.Options
import QuantumKernels.Proofs.Remote.Configuration
import QuantumKernels.Simulator.Device
import QuantumKernels.Stage.Settings

/-!
# Settings and options

The simulator, the stages, the optimizer and the job service each take options all or nothing: one bad
value for a key of theirs refuses the whole map, and an accepted map sets the keys in it and no others.
So whatever maps they are given one after another, their settings stay in range.
-/
namespace QuantumKernels

open Options

namespace LocalSettings

variable {s s' : LocalSettings} {options : Options}

/-- A value for the simulator is none of its kind or out of range. -/
def Refuses (options : Options) : Prop :=
  options.Unfit shotsKey (natural 64) (0 < ·) ∨ options.Malformed seedKey (natural 64) ∨
    options.Unfit maxQubitsKey (natural 64) (fun n => 1 ≤ n ∧ n ≤ qubitCeiling) ∨
    options.Unfit readoutErrorKey real (fun p => 0 ≤ p ∧ p ≤ 0.5)

instance (options : Options) : Decidable (Refuses options) := inferInstanceAs (Decidable (_ ∨ _ ∨ _ ∨ _))

/-- The simulator with all that options set of it. -/
def overriddenBy (s : LocalSettings) (options : Options) : LocalSettings where
  shots := (options.value? shotsKey (natural 64)).getD s.shots
  seed := (options.value? seedKey (natural 64)).or s.seed
  maxQubits := (options.value? maxQubitsKey (natural 64)).getD s.maxQubits
  readoutError := (options.value? readoutErrorKey real).getD s.readoutError

theorem take_eq_ok {α : Type} {key : String} {reader : Reader α} {complaint? : α → Option String}
    {put : α → LocalSettings} : take options key reader complaint? s put = .ok s' ↔
      ¬ options.Unfit key reader (complaint? · = none) ∧ s' = (options.value? key reader).elim s put := by
  rw [not_unfit_iff, take]
  simp only [bind_eq_ok_iff, mapError_eq_ok]
  constructor
  · rintro ⟨v, hread, h⟩
    rw [value?_of_read hread]
    cases v with
    | none =>
      cases h
      exact ⟨⟨none, hread, nofun⟩, rfl⟩
    | some a =>
      dsimp only at h
      split at h <;> cases h
      refine ⟨⟨some a, hread, ?_⟩, rfl⟩
      intro b hb
      cases hb
      assumption
  · rintro ⟨⟨v, hread, hfits⟩, rfl⟩
    rw [value?_of_read hread]
    refine ⟨v, hread, ?_⟩
    cases v with
    | none => rfl
    | some a =>
      dsimp only
      rw [hfits a rfl]
      rfl

theorem apply_eq_ok : s.apply options = .ok s' ↔ ¬ Refuses options ∧ s' = s.overriddenBy options := by
  have hshots : ∀ n, (if n = 0 then some "shots must be positive" else none) = none ↔ 0 < n := by
    intro n
    split
    · exact iff_of_false nofun (by omega)
    · exact iff_of_true rfl (by omega)
  have hqubits : ∀ n, (if n = 0 ∨ qubitCeiling < n then
      some s!"max-qubits must be in 1..={qubitCeiling}, got {n}" else none) = none ↔
        1 ≤ n ∧ n ≤ qubitCeiling := by
    intro n
    split
    · exact iff_of_false nofun (by omega)
    · exact iff_of_true rfl (by omega)
  have herror : ∀ p : Float, (if 0 ≤ p ∧ p ≤ 0.5 then none else
      some ("readout-error must be in [0, 0.5], got " ++ Decimal.Layout.plain.render p)) = none ↔
        0 ≤ p ∧ p ≤ 0.5 := by
    intro p
    split
    · exact iff_of_true rfl ‹_›
    · exact iff_of_false nofun ‹_›
  have hseed : options.Unfit seedKey (natural 64) (fun _ => True) ↔ options.Malformed seedKey (natural 64) := by
    simp [Unfit]
  unfold apply
  simp only [bind_eq_ok_iff, take_eq_ok, hshots, hqubits, herror, hseed]
  rw [Refuses, not_or, not_or, not_or, overriddenBy]
  generalize options.value? shotsKey (natural 64) = shots
  generalize options.value? seedKey (natural 64) = seed
  generalize options.value? maxQubitsKey (natural 64) = maxQubits
  generalize options.value? readoutErrorKey real = readoutError
  constructor
  · rintro ⟨_, ⟨hshots, rfl⟩, _, ⟨hseed, rfl⟩, _, ⟨hqubits, rfl⟩, herror, rfl⟩
    refine ⟨⟨hshots, hseed, hqubits, herror⟩, ?_⟩
    cases shots <;> cases seed <;> cases maxQubits <;> cases readoutError <;> rfl
  · rintro ⟨⟨hshots, hseed, hqubits, herror⟩, rfl⟩
    refine ⟨_, ⟨hshots, rfl⟩, _, ⟨hseed, rfl⟩, _, ⟨hqubits, rfl⟩, herror, ?_⟩
    cases shots <;> cases seed <;> cases maxQubits <;> cases readoutError <;> rfl

end LocalSettings

/-- Scales that extrapolation runs at: odd ones, each once, and one at least. -/
def Extrapolation.Proper (scales : List ℕ) : Prop := scales ≠ [] ∧ scales.Nodup ∧ ∀ r ∈ scales, r % 2 = 1

theorem Extrapolation.check_eq_ok {scales : List ℕ} : check scales = .ok () ↔ Proper scales := by
  have hodd : (∀ r ∈ scales, (r % 2 == 0) = false) ↔ ∀ r ∈ scales, r % 2 = 1 :=
    forall₂_congr fun r _ => by rw [beq_eq_false_iff_ne]; omega
  unfold check Proper
  split
  · rename_i hempty
    exact iff_of_false nofun fun h => h.1 (List.isEmpty_iff.mp hempty)
  · rename_i hsome
    have hne : scales ≠ [] := fun h => hsome (List.isEmpty_iff.mpr h)
    split
    · rename_i r hfind
      have heven := List.find?_some hfind
      refine iff_of_false nofun fun h => ?_
      have := hodd.mpr h.2.2 r (List.mem_of_find?_eq_some hfind)
      rw [heven] at this
      cases this
    · rename_i hfind
      have hall := hodd.mp (by simpa using hfind)
      split
      · exact iff_of_true rfl ⟨hne, ‹_›, hall⟩
      · exact iff_of_false nofun fun h => absurd h.2.1 ‹_›

namespace StageSettings

variable {s : StageSettings} {options : Options}

/-- A value for the stage is none of its kind or one that it cannot run with. -/
def Refuses : StageSettings → Options → Prop
  | sampling _, options => options.Unfit Sampling.key (natural 64) (0 < ·)
  | correction _, options => options.MalformedList Readout.Flip.up.key real ∨
      options.MalformedList Readout.Flip.down.key real
  | extrapolation _, options => options.UnfitList Extrapolation.key (natural 64) Extrapolation.Proper

/-- The stage with all that options set of it. -/
def overriddenBy : StageSettings → Options → StageSettings
  | sampling times, options => sampling ((options.value? Sampling.key (natural 64)).getD times)
  | correction rates, options => correction {
      up := (options.values? Readout.Flip.up.key real).or rates.up
      down := (options.values? Readout.Flip.down.key real).or rates.down }
  | extrapolation scales, options => extrapolation ((options.values? Extrapolation.key (natural 64)).getD scales)

/-- Whether options set anything of the stage. -/
def concerns (s : StageSettings) (options : Options) : Bool := s.specs.any fun spec => options.contains spec.key

theorem apply_eq_ok {result : StageSettings × Bool} :
    s.apply options = .ok result ↔
      ¬ s.Refuses options ∧ result = (s.overriddenBy options, s.concerns options) := by
  cases s with
  | sampling times =>
    rw [Refuses, not_unfit_iff, overriddenBy, apply, Sampling.read]
    cases hread : options.read Sampling.key (natural 64) with
    | error e => exact iff_of_false nofun fun h => by obtain ⟨⟨v, hv, -⟩, -⟩ := h; cases hv
    | ok v =>
      have hconcerns : (sampling times).concerns options = v.isSome := by
        simp [concerns, specs, Sampling.specs, isSome_of_read hread]
      rw [hconcerns, value?_of_read hread]
      rcases v with _ | _ | n
      · simp [Except.mapError, bind, Except.bind, pure, Except.pure, eq_comm]
      · simp [Except.mapError, bind, Except.bind]
      · simp [Except.mapError, bind, Except.bind, pure, Except.pure, eq_comm]
  | correction rates =>
    rw [Refuses, not_or, ← exists_readList_eq_ok_iff, ← exists_readList_eq_ok_iff, overriddenBy, apply,
      Correction.Rates.handle]
    cases hup : options.readList Readout.Flip.up.key real with
    | error e => exact iff_of_false nofun fun h => by obtain ⟨⟨⟨v, hv⟩, -⟩, -⟩ := h; cases hv
    | ok up =>
      cases hdown : options.readList Readout.Flip.down.key real with
      | error e => exact iff_of_false nofun fun h => by obtain ⟨⟨-, v, hv⟩, -⟩ := h; cases hv
      | ok down =>
        have hconcerns : (correction rates).concerns options = (up.isSome || down.isSome) := by
          simp [concerns, specs, Correction.specs, isSome_of_readList hup, isSome_of_readList hdown]
        rw [hconcerns, values?_of_readList hup, values?_of_readList hdown]
        simp [Except.mapError, bind, Except.bind, pure, Except.pure, eq_comm]
  | extrapolation scales =>
    rw [Refuses, not_unfitList_iff, overriddenBy, apply, Extrapolation.read]
    cases hread : options.readList Extrapolation.key (natural 64) with
    | error e => exact iff_of_false nofun fun h => by obtain ⟨⟨v, hv, -⟩, -⟩ := h; cases hv
    | ok vs =>
      have hconcerns : (extrapolation scales).concerns options = vs.isSome := by
        simp [concerns, specs, Extrapolation.specs, isSome_of_readList hread]
      rw [hconcerns, values?_of_readList hread]
      cases vs with
      | none => simp [Except.mapError, bind, Except.bind, pure, Except.pure, eq_comm]
      | some vs =>
        have hproper := @Extrapolation.check_eq_ok vs
        cases hcheck : Extrapolation.check vs with
        | error e =>
          rw [hcheck] at hproper
          simp [Except.mapError, bind, Except.bind, hcheck, ← hproper]
        | ok _ =>
          rw [hcheck] at hproper
          simp [Except.mapError, bind, Except.bind, pure, Except.pure, hcheck, ← hproper, eq_comm]

end StageSettings

namespace Optimizer

/-- The limit of the optimizer is no number or zero. -/
def Refuses (options : Options) : Prop := options.Unfit triesKey (natural 64) (0 < ·)

/-- The optimizer with the limit that options set, if they set one. -/
def overriddenBy (o : Optimizer) (options : Options) : Optimizer :=
  (options.value? triesKey (natural 64)).elim o ofTries

theorem handleOptions_of_refuses {o : Optimizer} {options : Options} (h : Refuses options) :
    o.handleOptions options = (o, false) := by
  unfold handleOptions
  split
  · rename_i n hread
    refine dif_neg fun hpos => not_unfit_iff.mpr ⟨some n, hread, ?_⟩ h
    rintro _ ⟨⟩
    exact hpos
  · rfl

theorem handleOptions_of_not_refuses {o : Optimizer} {options : Options} (h : ¬ Refuses options) :
    o.handleOptions options = (o.overriddenBy options, options.contains triesKey) := by
  obtain ⟨v, hread, hfits⟩ := not_unfit_iff.mp h
  rw [overriddenBy, value?_of_read hread, ← isSome_of_read hread, handleOptions, hread]
  cases v with
  | none => rfl
  | some n =>
    have hpos : 0 < n := hfits n rfl
    have htries : ofTries n = ⟨n, hpos⟩ := by simp [ofTries, Nat.max_eq_left hpos]
    simp [hpos, htries]

end Optimizer

/-- A part that options can change, with its settings. -/
inductive Adjustable where
  | simulator (s : LocalSettings)
  | stage (s : StageSettings)
  | optimizer (o : Optimizer)
  | service (s : Remote.JobService)

/-- A way in which options come to a part: applied, offered to everyone, or in a configuration. -/
inductive OptionCall where
  | apply (options : Options)
  | handle (options : Options)
  | configure (config : DeviceConfig)

def OptionCall.options : OptionCall → Options
  | apply options => options
  | handle options => options
  | configure config => config.options

/-- What a part answers: a failure, whether options have set anything of it, or nothing further. -/
inductive OptionAnswer where
  | failed (e : DeviceError)
  | handled (any : Bool)
  | done

namespace Adjustable

/-- The parts as they are before any option is set. -/
def builtIn : List Adjustable :=
  [simulator {}, optimizer .default, service {}] ++ StageSettings.builtIn.map stage

/-- The answer to a call and the part after it. The optimizer only hears what is offered to everyone,
and the job service only configurations. -/
def call? : Adjustable → OptionCall → Option (OptionAnswer × Adjustable)
  | simulator s, .apply options => some <| match s.apply options with
    | .ok s' => (.handled (LocalSettings.concerns options), simulator s')
    | .error e => (.failed e, simulator s)
  | simulator s, .handle options => some (.handled (s.handle options).2, simulator (s.handle options).1)
  | simulator s, .configure config => some <| match s.configure config with
    | .ok s' => (.done, simulator s')
    | .error e => (.failed e, simulator s)
  | stage s, .apply options => some <| match s.apply options with
    | .ok (s', any) => (.handled any, stage s')
    | .error e => (.failed e, stage s)
  | stage s, .handle options => some (.handled (s.handle options).2, stage (s.handle options).1)
  | stage s, .configure config => some <| match s.configure config with
    | .ok s' => (.done, stage s')
    | .error e => (.failed e, stage s)
  | optimizer o, .handle options => some (.handled (o.handleOptions options).2, optimizer (o.handleOptions options).1)
  | service s, .configure config => some <| match s.configure config with
    | .ok s' => (.done, service s')
    | .error e => (.failed e, service s)
  | _, _ => none

/-- The part after one call, and after calls one after another. -/
def after (c : Adjustable) (history : List OptionCall) : Adjustable :=
  history.foldl (fun c call => ((c.call? call).map (·.2)).getD c) c

/-- A value for a key of the part is none of its kind or out of range. -/
def Refuses : Adjustable → Options → Prop
  | simulator _, options => LocalSettings.Refuses options
  | stage s, options => s.Refuses options
  | optimizer _, options => Optimizer.Refuses options
  | service _, options => Remote.JobService.Refuses options

/-- The part with all that a call sets of it. -/
def overriddenBy : Adjustable → OptionCall → Adjustable
  | simulator s, call => simulator (s.overriddenBy call.options)
  | stage s, call => stage (s.overriddenBy call.options)
  | optimizer o, call => optimizer (o.overriddenBy call.options)
  | service s, .configure config => service (s.overriddenBy config)
  | service s, _ => service s

def keys : Adjustable → List String
  | simulator _ => LocalSettings.specs.map (·.key)
  | stage s => s.specs.map (·.key)
  | optimizer _ => Optimizer.specs.map (·.key)
  | service _ => ["backend", "shots", "n-qubits"]

/-- The settings are in range. -/
def Valid : Adjustable → Prop
  | simulator s => 1 ≤ s.shots ∧ (1 ≤ s.maxQubits ∧ s.maxQubits ≤ LocalSettings.qubitCeiling) ∧
      0 ≤ s.readoutError ∧ s.readoutError ≤ 0.5
  | stage (.sampling times) => 1 ≤ times
  | stage (.correction _) => True
  | stage (.extrapolation scales) => Extrapolation.Proper scales
  | optimizer o => 1 ≤ o.tries
  | service s => 1 ≤ s.shots ∧ 1 ≤ s.qubits

/-- What becomes of a call that is answered: a refusal changes nothing, and anything else sets what is
in the options, of the part's own keys. -/
structure Taken (c : Adjustable) (call : OptionCall) (answer : OptionAnswer) (c' : Adjustable) : Prop where
  refused : c.Refuses call.options → c' = c ∧ match call with
    | .handle _ => answer = .handled false
    | _ => ∃ e, answer = .failed e
  accepted : ¬ c.Refuses call.options → c' = c.overriddenBy call ∧ answer = match call with
    | .configure _ => .done
    | _ => .handled (c.keys.any call.options.contains)

variable {c c' : Adjustable} {call : OptionCall} {answer : OptionAnswer}

/-- What refuses exactly the bad and otherwise gives one result has failed, or gives that. -/
theorem failed_or_ok {α : Type} {x : Except DeviceError α} {bad : Prop} {good : α}
    (h : ∀ a, x = .ok a ↔ ¬ bad ∧ a = good) : (bad ∧ ∃ e, x = .error e) ∨ (¬ bad ∧ x = .ok good) := by
  by_cases hbad : bad
  · cases x with
    | error e => exact .inl ⟨hbad, e, rfl⟩
    | ok a => exact absurd hbad ((h a).mp rfl).1
  · exact .inr ⟨hbad, (h good).mpr ⟨hbad, rfl⟩⟩

/-- What a call comes to by an attempt to apply the options, which gives the part as it is afterwards
and whether anything of it is set. -/
def settle (c : Adjustable) : OptionCall → Except DeviceError (Adjustable × Bool) → OptionAnswer × Adjustable
  | .configure _, .ok (c', _) => (.done, c')
  | _, .ok (c', any) => (.handled any, c')
  | .handle _, .error _ => (.handled false, c)
  | _, .error e => (.failed e, c)

theorem taken_settle {α : Type} {x : Except DeviceError α} {good : α} {result : α → Adjustable × Bool}
    (h : ∀ a, x = .ok a ↔ ¬ c.Refuses call.options ∧ a = good)
    (hresult : result good = (c.overriddenBy call, c.keys.any call.options.contains))
    (hsettle : c.settle call (x.map result) = (answer, c')) : c.Taken call answer c' := by
  obtain ⟨hbad, e, rfl⟩ | ⟨hgood, rfl⟩ := failed_or_ok h
  · refine ⟨fun _ => ?_, fun hgood => absurd hbad hgood⟩
    cases call <;> cases hsettle
    · exact ⟨rfl, e, rfl⟩
    · exact ⟨rfl, rfl⟩
    · exact ⟨rfl, e, rfl⟩
  · refine ⟨fun hbad => absurd hbad hgood, fun _ => ?_⟩
    rw [Except.map, hresult] at hsettle
    cases call <;> cases hsettle <;> exact ⟨rfl, rfl⟩

theorem call?_simulator (s : LocalSettings) : (simulator s).call? call = some ((simulator s).settle call
    ((s.apply call.options).map fun s' => (simulator s', LocalSettings.concerns call.options))) := by
  cases call <;> simp only [call?, LocalSettings.handle, LocalSettings.configure, OptionCall.options] <;>
    cases s.apply _ <;> rfl

theorem call?_stage (s : StageSettings) : (stage s).call? call = some ((stage s).settle call
    ((s.apply call.options).map fun (s', any) => (stage s', any))) := by
  cases call <;> simp only [call?, StageSettings.handle, StageSettings.configure, OptionCall.options] <;>
    cases s.apply _ <;> rfl

theorem call?_service (s : Remote.JobService) (config : DeviceConfig) :
    (service s).call? (.configure config) = some ((service s).settle (.configure config)
      ((s.configure config).map fun s' => (service s', (service s).keys.any config.options.contains))) := by
  rw [call?]
  cases s.configure config <;> rfl

theorem call?_taken (h : c.call? call = some (answer, c')) : c.Taken call answer c' := by
  cases c with
  | simulator s =>
    have hkeys : LocalSettings.concerns call.options = (simulator s).keys.any call.options.contains := by
      simp [LocalSettings.concerns, keys, List.any_map, Function.comp_def]
    rw [call?_simulator] at h
    exact taken_settle (fun _ => LocalSettings.apply_eq_ok) (congrArg (Prod.mk _) hkeys) (Option.some.inj h)
  | stage s =>
    have hkeys : s.concerns call.options = (stage s).keys.any call.options.contains := by
      simp [StageSettings.concerns, keys, List.any_map, Function.comp_def]
    rw [call?_stage] at h
    exact taken_settle (fun _ => StageSettings.apply_eq_ok) (congrArg (Prod.mk _) hkeys) (Option.some.inj h)
  | optimizer o =>
    cases call with
    | apply options | configure config => cases h
    | handle options =>
      by_cases hbad : Optimizer.Refuses options
      · cases h
        rw [Optimizer.handleOptions_of_refuses hbad]
        exact ⟨fun _ => ⟨rfl, rfl⟩, fun hnot => absurd hbad hnot⟩
      · cases h
        rw [Optimizer.handleOptions_of_not_refuses hbad]
        refine ⟨fun hrefuses => absurd hrefuses hbad, fun _ => ⟨rfl, ?_⟩⟩
        simp [keys, Optimizer.specs, OptionCall.options]
  | service s =>
    cases call with
    | apply options | handle options => cases h
    | configure config =>
      rw [call?_service] at h
      exact taken_settle (fun _ => Remote.JobService.configure_eq_ok) rfl (Option.some.inj h)

theorem Valid.overriddenBy (hc : c.Valid) (hgood : ¬ c.Refuses call.options) :
    (c.overriddenBy call).Valid := by
  cases c with
  | simulator s =>
    obtain ⟨hshots, hqubits, herror⟩ := hc
    simp only [Refuses, LocalSettings.Refuses, not_or] at hgood
    obtain ⟨hshots', -, hqubits', herror'⟩ := hgood
    exact ⟨fits_getD hshots' hshots, fits_getD hqubits' hqubits, fits_getD herror' herror⟩
  | stage s =>
    cases s with
    | sampling times => exact fits_getD hgood hc
    | correction rates => trivial
    | extrapolation scales => exact fits_getD_list hgood hc
  | optimizer o => exact (o.overriddenBy call.options).tries_pos
  | service s =>
    cases call with
    | apply options | handle options => exact hc
    | configure config =>
      obtain ⟨hshots, hqubits⟩ := hc
      simp only [Refuses, Remote.JobService.Refuses, not_or] at hgood
      obtain ⟨-, -, hshots', hqubits'⟩ := hgood
      have hpositive : ∀ {v : Option ℕ} {n : ℕ}, v ≠ some 0 → 1 ≤ n → 1 ≤ v.getD n := by
        rintro (_ | m) n hv hn
        · exact hn
        · exact Nat.one_le_iff_ne_zero.mpr fun hm => hv (congrArg some hm)
      exact ⟨hpositive hshots' hshots, hpositive hqubits' hqubits⟩

theorem valid_builtIn : ∀ c ∈ builtIn, c.Valid := by
  have herror : (0 : Float) ≤ 0 ∧ (0 : Float) ≤ 0.5 := by decide +kernel
  have hscales : Extrapolation.Proper Extrapolation.defaultScales := ⟨by decide, by decide, by decide⟩
  simp [builtIn, StageSettings.builtIn, Valid, LocalSettings.qubitCeiling, herror, hscales, Optimizer.default,
    Wire.defaultShots]

theorem valid_after (hc : c.Valid) (history : List OptionCall) : (c.after history).Valid := by
  refine List.foldlRecOn (motive := Valid) history _ hc fun c hc call _ => ?_
  cases hcall : c.call? call with
  | none => exact hc
  | some result =>
    obtain ⟨answer, c'⟩ := result
    have htaken := call?_taken hcall
    by_cases hbad : c.Refuses call.options
    · exact (htaken.refused hbad).1 ▸ hc
    · exact (htaken.accepted hbad).1 ▸ hc.overriddenBy hbad

end Adjustable

/-- From its default on, whatever options a part is given in whatever ways, its settings are in range.
A map with a bad value for one of its keys changes none of them, and is not handled; any other sets
the part's keys that are in it and no more. -/
theorem options_taken_all_or_nothing (start : Adjustable) (hstart : start ∈ Adjustable.builtIn)
    (history : List OptionCall) :
    (start.after history).Valid ∧
    ∀ call answer c', (start.after history).call? call = some (answer, c') →
      (start.after history).Taken call answer c' :=
  ⟨Adjustable.valid_after (Adjustable.valid_builtIn start hstart) history, fun _ _ _ => Adjustable.call?_taken⟩

/-- A number of shots, and an error that reads as no number. -/
def noNumber : Options := .ofList [("shots", "10"), ("readout-error", "NaN")]

theorem options_taken_all_or_nothing_noNumber :
    (Adjustable.simulator {}).after [.apply (.ofList [("shots", "64")])] = .simulator { shots := 64 } ∧
    (Adjustable.simulator { shots := 64 }).call? (.handle noNumber) =
      some (.handled false, .simulator { shots := 64 }) := by
  have hafter : (Adjustable.simulator {}).after [.apply (.ofList [("shots", "64")])] =
      .simulator { shots := 64 } := rfl
  have hrefuses : LocalSettings.Refuses noNumber := by decide +kernel
  obtain ⟨-, htaken⟩ := options_taken_all_or_nothing (.simulator {}) (by simp [Adjustable.builtIn])
    [.apply (.ofList [("shots", "64")])]
  rw [hafter] at htaken
  refine ⟨hafter, ?_⟩
  obtain ⟨hsame, hanswer⟩ := (htaken (.handle noNumber) _ _ rfl).refused hrefuses
  exact congrArg some (Prod.ext hanswer hsame)

end QuantumKernels
