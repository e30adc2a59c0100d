import QuantumKernels.Configuration.Basic

/-!
# Defaults of remote accelerators

A remote accelerator is configured with its own entry, and with the defaults under the keys that the entry
does not have. What the entry holds is kept there even if it makes no option, and then neither does the
default.
-/
namespace QuantumKernels

namespace Json

/-- No option text stands for the value. -/
inductive Inexpressible : Json → Prop
  | null : Inexpressible .null
  | record (fields : List (String × Json)) : Inexpressible (.record fields)
  | unreadable : Inexpressible .unreadable
  | list {v : Json} {items : List Json} (hmem : v ∈ items) (hv : Inexpressible v) : Inexpressible (.list items)

theorem inexpressible_list_iff {items : List Json} : (list items).Inexpressible ↔ ∃ v ∈ items, v.Inexpressible := by
  constructor
  · intro h
    cases h with
    | list hmem hv => exact ⟨_, hmem, hv⟩
  · intro ⟨v, hmem, hv⟩
    exact .list hmem hv

theorem optionTexts?_eq_none_iff (items : List Json) :
    optionText?.optionTexts? items = none ↔ ∃ v ∈ items, v.optionText? = none := by
  induction items with
  | nil => simp [optionText?.optionTexts?]
  | cons v rest ih =>
    simp only [List.mem_cons, exists_eq_or_imp, ← ih, optionText?.optionTexts?]
    cases v.optionText? <;> cases optionText?.optionTexts? rest <;> simp

theorem optionText?_eq_none_iff (v : Json) : v.optionText? = none ↔ v.Inexpressible := by
  cases v with
  | null => exact iff_of_true rfl .null
  | record fields => exact iff_of_true rfl (.record fields)
  | unreadable => exact iff_of_true rfl .unreadable
  | list items =>
    rw [optionText?, Option.map_eq_none_iff, optionTexts?_eq_none_iff, inexpressible_list_iff]
    exact exists_congr fun v => and_congr_right fun hmem => optionText?_eq_none_iff v
  | bool b => exact iff_of_false nofun nofun
  | int n => exact iff_of_false nofun nofun
  | real x => exact iff_of_false nofun nofun
  | text s => exact iff_of_false nofun nofun
termination_by sizeOf v
decreasing_by
  have hsize := List.sizeOf_lt_of_mem hmem
  simp only [list.sizeOf_spec]
  omega

end Json

/-- What has a binding keeps it; of the others the first one that is offered is taken. -/
theorem Dictionary.get?_foldl_insert_missing {α : Type} (m : Dictionary α) (offered : List (String × α)) (key : String) :
    (offered.foldl (fun m e => if m.contains e.1 then m else m.insert e.1 e.2) m).get? key =
      (m.get? key).or (offered.lookup key) := by
  induction offered generalizing m with
  | nil => simp
  | cons e offered ih =>
    rw [List.foldl_cons, ih, List.lookup_cons]
    by_cases hkey : key = e.1
    · subst hkey
      cases hget : m.get? e.1 <;> simp [Dictionary.contains, Dictionary.get?_insert, hget]
    · have hinsert : (if m.contains e.1 then m else m.insert e.1 e.2).get? key = m.get? key := by
        split
        · rfl
        · rw [Dictionary.get?_insert, if_neg (Ne.symm hkey)]
      rw [hinsert, beq_false_of_ne hkey]

theorem DeviceConfig.get?_options (d : DeviceConfig) (key : String) :
    d.options.get? key = (d.extra.get? key).bind Json.optionText? := by
  rw [options, Dictionary.get?_filterMap]

namespace Configuration

/-- The entry of an accelerator; without one, only its name is set. -/
def entryOf (c : Configuration) (name : String) : DeviceConfig := (c.accelerators.get? name).getD { name }

theorem get?_extra_deviceConfig (c : Configuration) (name key : String) :
    (c.deviceConfig name true).extra.get? key = ((c.entryOf name).extra.get? key).or (c.remote.entries.lookup key) :=
  (c.entryOf name).extra.get?_foldl_insert_missing c.remote.entries key

end Configuration

/-- The numbers that are set, by their keys. -/
def RemoteDefaults.numbers (r : RemoteDefaults) : List (String × Nat) :=
  [("timeout-seconds", r.timeoutSeconds), ("max-attempts", r.maxAttempts), ("backoff-millis", r.backoffMillis)]

theorem RemoteDefaults.lookup_entries {r : RemoteDefaults} {key : String} {n : Nat} (h : (key, n) ∈ r.numbers) :
    r.entries.lookup key = some (.ofNat n) := by
  simp only [numbers, List.mem_cons, Prod.mk.injEq, List.not_mem_nil, or_false] at h
  rcases h with ⟨rfl, rfl⟩ | ⟨rfl, rfl⟩ | ⟨rfl, rfl⟩ <;> rfl

theorem RemoteDefaults.lookup_entries_eq_none {r : RemoteDefaults} {key : String}
    (h : key ∉ r.numbers.map (·.1)) : r.entries.lookup key = none := by
  apply List.lookup_eq_none_iff.mpr
  intro e he
  have hentries : r.entries = r.numbers.map fun e => (e.1, Json.ofNat e.2) := rfl
  rw [hentries] at he
  obtain ⟨d, hd, rfl⟩ := List.mem_map.mp he
  simp only [List.mem_map] at h
  exact bne_iff_ne.mpr fun heq => h ⟨d, hd, heq.symm⟩

namespace Configuration

/-- An accelerator that is not remote has its entry as it is. A remote one has name, endpoint, token and all
other options of its entry. Under the three keys it has the option of the entry, or the default if the entry
makes no option there, exactly if the entry does not hold an inexpressible value; if it does there is none. -/
theorem remote_defaults_reach_iff (c : Configuration) (name : String) :
    c.deviceConfig name false = c.entryOf name ∧
    (c.deviceConfig name true).name = (c.entryOf name).name ∧
    (c.deviceConfig name true).endpoint = (c.entryOf name).endpoint ∧
    (c.deviceConfig name true).token = (c.entryOf name).token ∧
    (∀ key, key ∉ c.remote.numbers.map (·.1) →
      (c.deviceConfig name true).options.get? key = (c.entryOf name).options.get? key) ∧
    ∀ key n, (key, n) ∈ c.remote.numbers →
      ((c.deviceConfig name true).options.get? key = some (((c.entryOf name).options.get? key).getD (toString n)) ↔
        ∀ v, (c.entryOf name).extra.get? key = some v → ¬ v.Inexpressible) ∧
      ((∃ v, (c.entryOf name).extra.get? key = some v ∧ v.Inexpressible) →
        (c.deviceConfig name true).options.get? key = none) := by
  refine ⟨rfl, rfl, rfl, rfl, fun key hkey => ?_, fun key n hdefault => ?_⟩
  · rw [DeviceConfig.get?_options, DeviceConfig.get?_options, get?_extra_deviceConfig,
      RemoteDefaults.lookup_entries_eq_none hkey, Option.or_none]
  · rw [DeviceConfig.get?_options, DeviceConfig.get?_options, get?_extra_deviceConfig,
      RemoteDefaults.lookup_entries hdefault]
    cases (c.entryOf name).extra.get? key with
    | none => exact ⟨iff_of_true rfl nofun, nofun⟩
    | some v =>
      simp only [Option.some_or, Option.bind_some, Option.some.injEq, forall_eq', exists_eq_left',
        ← Json.optionText?_eq_none_iff]
      cases v.optionText? <;> simp

/-- One entry, with a timeout that is given as nothing. -/
def openTimeout : Configuration where
  remote := { timeoutSeconds := 9, maxAttempts := 2, backoffMillis := 700 }
  accelerators := .ofList [("ibm", { name := "ibm", extra := .ofList [("timeout-seconds", .null)] })]

theorem remote_defaults_reach_iff_openTimeout :
    (openTimeout.deviceConfig "ibm" true).options.get? "timeout-seconds" = none ∧
      (openTimeout.deviceConfig "ibm" true).options.get? "max-attempts" = some "2" := by
  have hnull : (openTimeout.entryOf "ibm").extra.get? "timeout-seconds" = some .null := by rfl
  have hopen : (openTimeout.entryOf "ibm").extra.get? "max-attempts" = none := by rfl
  obtain ⟨-, -, -, -, -, hreach⟩ := remote_defaults_reach_iff openTimeout "ibm"
  constructor
  · exact (hreach "timeout-seconds" 9 (.head _)).2 ⟨.null, hnull, .null⟩
  · apply (hreach "max-attempts" 2 (.tail _ (.head _))).1.mpr
    intro v hv
    rw [hopen] at hv
    cases hv

end Configuration

end QuantumKernels
