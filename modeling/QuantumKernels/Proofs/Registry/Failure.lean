import QuantumKernels.Proofs.Registry.Initialization
import QuantumKernels.Proofs.Registry.Session

/-!
# Plugins that fail late

A plugin that is handed over to an initialized context works on the registry in use, so what it did
before it failed stays. The failure goes unnoticed exactly if nothing was registered and no object of
a service was changed.
-/
namespace QuantumKernels

variable {κ α : Type} [DecidableEq κ] [Capability κ] [Configurable α]

namespace Registry

/-- Two registries answer alike: to lookups, in their lists, and to offers of options. -/
structure AnswersAlike (r s : Registry κ α) : Prop where
  lookups : ∀ c name, s.find? c name = r.find? c name
  services : ∀ c, s.services c = r.services c
  objects : ∀ c, ∀ h ∈ r.services c, s.object? h = r.object? h
  ids : ∀ c, s.ids c = r.ids c
  size : s.size = r.size
  handled : ∀ options, (s.handleOptions options).2 = (r.handleOptions options).2
  /-- what the objects of services become when options are offered -/
  offered : ∀ options c, ∀ h ∈ r.services c,
    (s.handleOptions options).1.object? h = (r.handleOptions options).1.object? h

/-- The count of providers grows by what is registered. -/
theorem size_act (r : Registry κ α) (x : Action κ α) :
    (r.act x).size = r.size + (x.registers? r).toList.length := by
  rcases act_cases r x with ⟨hnone, hact⟩ | ⟨p, hp, hact⟩
  · have hkeeps : ∀ {s : Registry κ α}, r.Retains s → s.size = r.size := fun hs => by
      rw [size, hs.counts]
      rfl
    rw [hnone]
    rcases hact with hact | ⟨a, hact⟩ | ⟨h, f, -, hact⟩ | ⟨options, hact⟩ <;> rw [hact]
    · rfl
    · rfl
    · exact hkeeps (retains_change r h f)
    · exact hkeeps (retains_offerAll options _ r false)
  · rw [hp]
    rcases hact with ⟨a, -, hact⟩ | ⟨-, -, hact⟩ <;> rw [hact] <;> exact size_register _ p

theorem size_run (r : Registry κ α) (actions : List (Action κ α)) :
    (r.run actions).size = r.size + (r.registrations actions).length := by
  induction actions generalizing r with
  | nil => rfl
  | cons x rest ih =>
    have hrest : (r.run (x :: rest)).size = ((r.act x).run rest).size := rfl
    rw [hrest, ih, size_act, registrations, List.length_append, Nat.add_assoc]

/-- An action that registers nothing leaves the shelves as they are. -/
theorem shelves_act {r : Registry κ α} {x : Action κ α} (h : x.registers? r = none) :
    (r.act x).shelves = r.shelves := by
  rcases act_cases r x with ⟨-, hact⟩ | ⟨p, hp, -⟩
  · rcases hact with hact | ⟨a, hact⟩ | ⟨i, f, -, hact⟩ | ⟨options, hact⟩ <;> rw [hact]
    · rfl
    · exact (retains_change r i f).shelves
    · exact (retains_offerAll options _ r false).shelves
  · cases h.symm.trans hp

theorem shelves_run {r : Registry κ α} {actions : List (Action κ α)}
    (h : r.registrations actions = []) : (r.run actions).shelves = r.shelves := by
  induction actions generalizing r with
  | nil => rfl
  | cons x rest ih =>
    obtain ⟨hfirst, hrest⟩ := List.append_eq_nil_iff.mp h
    have hx : x.registers? r = none := by simpa using hfirst
    exact (ih hrest).trans (shelves_act hx)

/-- Registries with the same shelves and size and the same objects on them answer alike. -/
theorem answersAlike_of_shelves {r s : Registry κ α} (hshelves : s.shelves = r.shelves)
    (hsize : s.size = r.size) (hobjects : ∀ c, ∀ h ∈ r.services c, s.object? h = r.object? h) :
    r.AnswersAlike s := by
  have hproviders : ∀ c, s.providersOf c = r.providersOf c := fun c => by
    rw [providersOf, hshelves]
    rfl
  have hservices : ∀ c, s.services c = r.services c := fun c => by
    rw [services, hproviders]
    rfl
  refine ⟨fun c name => ?_, hservices, hobjects, fun c => ?_, hsize, fun options => ?_, fun options c h hh => ?_⟩
  · rw [find?, hproviders]
    rfl
  · rw [Registry.ids, hproviders]
    rfl
  · exact handleOptions_snd_congr (hservices _) (hobjects _) options
  · rw [handleOptions_eq, handleOptions_eq, object?_offerAll, object?_offerAll, hservices, hobjects c h hh]

/-- What is done with a registry goes unnoticed exactly if it registers nothing and changes no object
of a service. -/
theorem answersAlike_run_iff (r : Registry κ α) (actions : List (Action κ α)) :
    r.AnswersAlike (r.run actions) ↔ r.registrations actions = [] ∧
      ∀ c, ∀ h ∈ r.services c, (r.run actions).object? h = r.object? h := by
  constructor
  · intro halike
    have hsize := halike.size
    rw [size_run] at hsize
    exact ⟨List.eq_nil_of_length_eq_zero (by omega), halike.objects⟩
  · rintro ⟨hnone, hobjects⟩
    refine answersAlike_of_shelves (shelves_run hnone) ?_ hobjects
    rw [size_run, hnone]
    rfl

end Registry

namespace Context

/-- The context is as before but for its registry, which answers as before. -/
structure Unnoticed (c c' : Context κ α) : Prop where
  registry : c.registry.AnswersAlike c'.registry
  active : c'.active = c.active
  held : c'.held = c.held
  options : c'.options = c.options
  root : c'.root = c.root
  initialized : c'.initialized = c.initialized

omit [DecidableEq κ] [Capability κ] [Configurable α] in
theorem addPlugin_of_error {c : Context κ α} (hc : c.initialized = true) {p : Plugin κ α}
    {e : RegistryError} {r : Registry κ α} (hp : p.register 0 c.registry = (.error e, r)) :
    c.addPlugin p = (.error e, { c with registry := r }) := by
  rw [addPlugin, if_pos hc, HeldPlugin.call]
  simp only [hp]

/-- A plugin that fails in an initialized context is not kept, and the registry is left as the plugin
left it: with everything that it registered before. Nothing is noticed of it exactly if the registry
answers as before; for a plugin that works on the registry by these actions this is so exactly if it
registered nothing and changed no object of a service. -/
theorem failed_plugin_unnoticed_iff {c : Context κ α} (hc : c.initialized = true) {p : Plugin κ α}
    {e : RegistryError} {r : Registry κ α} (hp : p.register 0 c.registry = (.error e, r)) :
    ∃ c', c.addPlugin p = (.error e, c') ∧ (c.Unnoticed c' ↔ c.registry.AnswersAlike r) ∧
      ∀ actions, r = c.registry.run actions →
        (c.Unnoticed c' ↔ c.registry.registrations actions = [] ∧
          ∀ k, ∀ h ∈ c.registry.services k, r.object? h = c.registry.object? h) ∧
        ∀ log, c.registry.Sound log → c'.registry.Follows (log ++ c.registry.registrations actions) := by
  have hunnoticed : c.Unnoticed { c with registry := r } ↔ c.registry.AnswersAlike r :=
    ⟨Unnoticed.registry, fun h => ⟨h, rfl, rfl, rfl, rfl, rfl⟩⟩
  refine ⟨_, addPlugin_of_error hc hp, hunnoticed, ?_⟩
  rintro actions rfl
  refine ⟨hunnoticed.trans (Registry.answersAlike_run_iff c.registry actions), fun log hlog => ?_⟩
  exact (Registry.sound_run hlog actions).follows

/-- The plugin shadows the only service and fails: the lookup goes to what it has left. -/
theorem failed_plugin_unnoticed_iff_shadowing :
    let steady : Plugin Facility (Component Unit) :=
      .always "steady" "" fun r => r.addShared .embedding "shift" .embedding
    let left : Registry.Action Facility (Component Unit) := .addShared .embedding "shift" (.generator ⟨true⟩)
    let faulty : Plugin Facility (Component Unit) :=
      { name := "faulty", register := fun _ r => (.error (.plugin "not ready"), r.run [left]) }
    let c := run {} [.withPlugin steady, .activate "root"]
    c.initialized = true ∧ ∃ c', c.addPlugin faulty = (.error (.plugin "not ready"), c') ∧ ¬ c.Unnoticed c' ∧
      c.registry.size = 1 ∧ c'.registry.size = 2 := by
  intro steady left faulty c
  have hregister : faulty.register 0 c.registry = (.error (.plugin "not ready"), c.registry.run [left]) := rfl
  obtain ⟨c', hadd, -, hactions⟩ := failed_plugin_unnoticed_iff (c := c) rfl hregister
  refine ⟨rfl, c', hadd, ?_, rfl, ?_⟩
  · rw [(hactions [left] rfl).1]
    rintro ⟨hnone, -⟩
    cases hnone
  · have hc' : { c with registry := c.registry.run [left] } = c' := congrArg Prod.snd hadd
    rw [← hc']
    exact Registry.size_run c.registry [left]

end Context

end QuantumKernels
