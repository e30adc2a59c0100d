import QuantumKernels.Registry.Context
import QuantumKernels.Workbench.Component
import Mathlib.Data.List.Induction

/-!
# Initialization

Until an initialization succeeds, a context has an empty registry and no active plugins, however
many attempts have failed. The one that succeeds calls each plugin once, from an empty registry on.
-/
namespace QuantumKernels

variable {κ α : Type}

namespace HeldPlugin

/-- The plugin after one more call. -/
def called (p : HeldPlugin κ α) : HeldPlugin κ α := { p with calls := p.calls + 1 }

/-- Each of the plugins is called once, in order, and succeeds; what they register makes the first
registry the second. -/
inductive Activates : List (HeldPlugin κ α) → Registry κ α → Registry κ α → Prop
  | nil {r : Registry κ α} : Activates [] r r
  | cons {p : HeldPlugin κ α} {rest : List (HeldPlugin κ α)} {r s t : Registry κ α}
      (h : p.plugin.register p.calls r = (.ok (), s)) (hrest : Activates rest s t) :
      Activates (p :: rest) r t

theorem callAll_cons_of_ok {p : HeldPlugin κ α} {r s : Registry κ α}
    (h : p.plugin.register p.calls r = (.ok (), s)) (rest : List (HeldPlugin κ α)) :
    callAll (p :: rest) r = ((callAll rest s).1, p.called :: (callAll rest s).2) := by
  simp only [callAll, call, h]
  rfl

theorem callAll_of_activates {held : List (HeldPlugin κ α)} {r s : Registry κ α}
    (h : Activates held r s) : callAll held r = (.ok s, held.map called) := by
  induction h with
  | nil => rfl
  | cons h _ ih => rw [callAll_cons_of_ok h, ih, List.map_cons]

/-- A plugin fails after all before it have succeeded. -/
inductive Stops : List (HeldPlugin κ α) → Registry κ α → RegistryError → List (HeldPlugin κ α) → Prop
  | here {p : HeldPlugin κ α} {rest : List (HeldPlugin κ α)} {r s : Registry κ α} {e : RegistryError}
      (h : p.plugin.register p.calls r = (.error e, s)) : Stops (p :: rest) r e (p.called :: rest)
  | later {p : HeldPlugin κ α} {rest rest' : List (HeldPlugin κ α)} {r s : Registry κ α}
      {e : RegistryError} (h : p.plugin.register p.calls r = (.ok (), s))
      (hrest : Stops rest s e rest') : Stops (p :: rest) r e (p.called :: rest')

theorem callAll_of_stops {held held' : List (HeldPlugin κ α)} {r : Registry κ α} {e : RegistryError}
    (h : Stops held r e held') : callAll held r = (.error e, held') := by
  induction h with
  | here h => simp only [callAll, call, h]; rfl
  | later h _ ih => rw [callAll_cons_of_ok h, ih]

theorem activates_or_stops (held : List (HeldPlugin κ α)) (r : Registry κ α) :
    (∃ s, Activates held r s) ∨ ∃ e held', Stops held r e held' := by
  induction held generalizing r with
  | nil => exact .inl ⟨r, .nil⟩
  | cons p rest ih =>
    rcases hregister : p.plugin.register p.calls r with ⟨outcome, s⟩
    cases outcome with
    | error e => exact .inr ⟨e, _, .here hregister⟩
    | ok _ =>
      rcases ih s with ⟨t, hrest⟩ | ⟨e, held', hrest⟩
      · exact .inl ⟨t, .cons hregister hrest⟩
      · exact .inr ⟨e, _, .later hregister hrest⟩

theorem Stops.plugins {held held' : List (HeldPlugin κ α)} {r : Registry κ α} {e : RegistryError}
    (h : Stops held r e held') : held'.map (·.plugin) = held.map (·.plugin) := by
  induction h with
  | here => rfl
  | later _ _ ih => exact congrArg (_ :: ·) ih

end HeldPlugin

namespace Context

/-- What is done with a context. -/
inductive Action (κ α : Type) where
  | withPlugin (p : Plugin κ α)
  | addPlugin (p : Plugin κ α)
  | activate (root : String)
  | setOption (key value : String)
  | unsetOption (key : String)
  | service (capability : κ) (name : String)
  | handleOptions
  /-- anything that is done with the registry itself, once it is there -/
  | work (f : Registry κ α → Registry κ α)

/-- The plugin that an action hands over. -/
def Action.plugin? : Action κ α → Option (Plugin κ α)
  | withPlugin p | addPlugin p => some p
  | activate _ | setOption .. | unsetOption _ | service .. | handleOptions | work _ => none

/-- Nothing is active; these plugins have been handed over. -/
structure Idle (c : Context κ α) (handed : List (Plugin κ α)) : Prop where
  initialized : c.initialized = false
  held : c.held.map (·.plugin) = handed
  registry : c.registry = {}
  active : c.active = []
  root : c.root = none

theorem idle_empty : ({} : Context κ α).Idle [] := ⟨rfl, rfl, rfl, rfl, rfl⟩

/-- The plugins handed over have been called once each, in order, from an empty registry on, and all
have succeeded. -/
structure Started (c c' : Context κ α) (root : String) (handed : List (Plugin κ α)) : Prop where
  calls : HeldPlugin.Activates c.held {} c'.registry
  held : c'.held = c.held.map HeldPlugin.called
  active : c'.active = handed.map fun p => ⟨p.name, p.description, none⟩
  root : c'.root = some root
  options : c'.options = c.options
  initialized : c'.initialized = true

variable {c : Context κ α}

theorem registry?_of_not_initialized (h : c.initialized = false) :
    c.registry? = .error .notInitialized := by
  unfold registry?
  rw [h]
  rfl

theorem registry?_of_initialized (h : c.initialized = true) : c.registry? = .ok c.registry :=
  if_pos h

theorem activate_of_initialized (h : c.initialized = true) (root : String) :
    c.activate root = (.ok (), c) := by
  rw [activate, if_pos h]

/-- The context once the plugins have made this registry. -/
def activated (c : Context κ α) (root : String) (r : Registry κ α) : Context κ α :=
  { c with
    held := c.held.map HeldPlugin.called, registry := r, active := c.held.map HeldPlugin.info
    root := some root, initialized := true }

theorem activate_of_activates (h : c.initialized = false) {r : Registry κ α}
    (hr : HeldPlugin.Activates c.held {} r) (root : String) :
    c.activate root = (.ok (), c.activated root r) := by
  have hactive : (c.held.map HeldPlugin.called).map HeldPlugin.info = c.held.map HeldPlugin.info := by
    rw [List.map_map]
    rfl
  rw [activate, h, HeldPlugin.callAll_of_activates hr]
  simp only [Bool.false_eq_true, if_false, hactive, activated]

theorem activate_of_stops (h : c.initialized = false) {e : RegistryError}
    {held : List (HeldPlugin κ α)} (hstops : HeldPlugin.Stops c.held {} e held) (root : String) :
    c.activate root = (.error e, { c with held := held }) := by
  rw [activate, h, HeldPlugin.callAll_of_stops hstops]
  rfl

theorem activate_cases (h : c.initialized = false) (root : String) :
    (∃ r, HeldPlugin.Activates c.held {} r ∧ c.activate root = (.ok (), c.activated root r)) ∨
      ∃ e held, HeldPlugin.Stops c.held {} e held ∧
        c.activate root = (.error e, { c with held := held }) := by
  rcases HeldPlugin.activates_or_stops c.held {} with ⟨r, hr⟩ | ⟨e, held, hstops⟩
  · exact .inl ⟨r, hr, activate_of_activates h hr root⟩
  · exact .inr ⟨e, held, hstops, activate_of_stops h hstops root⟩

theorem activate_eq_ok_iff (h : c.initialized = false) (root : String) :
    (c.activate root).1 = .ok () ↔ ∃ r, HeldPlugin.Activates c.held {} r := by
  constructor
  · intro hok
    rcases activate_cases h root with ⟨r, hr, -⟩ | ⟨e, held, -, hactivate⟩
    · exact ⟨r, hr⟩
    · rw [hactivate] at hok
      cases hok
  · rintro ⟨r, hr⟩
    rw [activate_of_activates h hr]

theorem Idle.started {handed : List (Plugin κ α)} (hc : c.Idle handed) {root : String}
    {c' : Context κ α} (h : c.activate root = (.ok (), c')) : c.Started c' root handed := by
  rcases activate_cases hc.initialized root with ⟨r, hr, hactivate⟩ | ⟨e, held, -, hactivate⟩
  · obtain rfl : c.activated root r = c' := congrArg Prod.snd (hactivate.symm.trans h)
    refine ⟨hr, rfl, ?_, rfl, rfl, rfl⟩
    rw [← hc.held, List.map_map]
    rfl
  · cases hactivate.symm.trans h

/-- An attempt that fails has called plugins, and has done nothing else. -/
theorem Idle.stopped {handed : List (Plugin κ α)} (hc : c.Idle handed) {root : String}
    {e : RegistryError} {c' : Context κ α} (h : c.activate root = (.error e, c')) :
    ∃ held, HeldPlugin.Stops c.held {} e held ∧ held.map (·.plugin) = handed ∧
      c' = { c with held := held } := by
  rcases activate_cases hc.initialized root with ⟨r, hr, hactivate⟩ | ⟨e', held, hstops, hactivate⟩
  · cases hactivate.symm.trans h
  · cases hactivate.symm.trans h
    exact ⟨held, hstops, hstops.plugins.trans hc.held, rfl⟩

theorem initialized_of_activate {root : String} (h : (c.activate root).1 = .ok ()) :
    (c.activate root).2.initialized = true := by
  cases hinit : c.initialized with
  | true => rw [activate_of_initialized hinit, hinit]
  | false =>
    rcases activate_cases hinit root with ⟨r, -, hactivate⟩ | ⟨e, held, -, hactivate⟩
    · rw [hactivate]
      rfl
    · rw [hactivate] at h
      cases h

theorem service_of_not_initialized [DecidableEq κ] [Capability κ] (h : c.initialized = false)
    (capability : κ) (name : String) : c.service capability name = .error .notInitialized := by
  rw [service, registry?_of_not_initialized h]
  rfl

theorem handleOptions_of_not_initialized [DecidableEq κ] [Capability κ] [Configurable α]
    (h : c.initialized = false) : c.handleOptions = .error .notInitialized := by
  rw [handleOptions, registry?_of_not_initialized h]
  rfl

section

variable [DecidableEq κ] [Capability κ] [Configurable α]

def act (c : Context κ α) : Action κ α → Context κ α
  | .withPlugin p => c.withPlugin p
  | .addPlugin p => (c.addPlugin p).2
  | .activate root => (c.activate root).2
  | .setOption key value => c.setOption key value
  | .unsetOption key => (c.unsetOption key).2
  | .service capability name => (c.service capability name).toOption.elim c (·.2)
  | .handleOptions => c.handleOptions.toOption.elim c (·.2)
  | .work f => c.registry?.toOption.elim c fun r => { c with registry := f r }

def run (c : Context κ α) (actions : List (Action κ α)) : Context κ α := actions.foldl act c

/-- An action leaves nothing active unless it is the attempt that succeeds. -/
theorem idle_act {handed : List (Plugin κ α)} (hc : c.Idle handed) (x : Action κ α) :
    (c.act x).Idle (handed ++ x.plugin?.toList) ∨
      (∃ root, x = .activate root ∧ (c.activate root).1 = .ok ()) ∧ (c.act x).initialized = true := by
  have hnone := hc.initialized
  have hwith (p : Plugin κ α) : (c.withPlugin p).Idle (handed ++ [p]) :=
    ⟨hnone, by simp [withPlugin, hc.held], hc.registry, hc.active, hc.root⟩
  have hadd : handed ++ (none : Option (Plugin κ α)).toList = handed := List.append_nil handed
  cases x with
  | withPlugin p => exact .inl (hwith p)
  | addPlugin p =>
    have hlate : c.addPlugin p = (.ok (), c.withPlugin p) := by
      rw [addPlugin, hnone]
      rfl
    rw [act, hlate]
    exact .inl (hwith p)
  | activate root =>
    rcases activate_cases hnone root with ⟨r, -, hactivate⟩ | ⟨e, held, hstops, hactivate⟩
    · have hok : (c.activate root).1 = .ok () := by rw [hactivate]
      exact .inr ⟨⟨root, rfl, hok⟩, initialized_of_activate hok⟩
    · rw [act, hactivate, Action.plugin?, hadd]
      exact .inl ⟨hnone, hstops.plugins.trans hc.held, hc.registry, hc.active, hc.root⟩
  | setOption key value =>
    rw [Action.plugin?, hadd]
    exact .inl ⟨hnone, hc.held, hc.registry, hc.active, hc.root⟩
  | unsetOption key =>
    rw [Action.plugin?, hadd]
    exact .inl ⟨hnone, hc.held, hc.registry, hc.active, hc.root⟩
  | service capability name =>
    rw [act, service_of_not_initialized hnone, Action.plugin?, hadd]
    exact .inl hc
  | handleOptions =>
    rw [act, handleOptions_of_not_initialized hnone, Action.plugin?, hadd]
    exact .inl hc
  | work f =>
    rw [act, registry?_of_not_initialized hnone, Action.plugin?, hadd]
    exact .inl hc

/-- Once initialized, a context stays so. -/
theorem initialized_act (h : c.initialized = true) (x : Action κ α) : (c.act x).initialized = true := by
  cases x with
  | withPlugin p => exact h
  | addPlugin p =>
    rw [act, addPlugin, if_pos h]
    split <;> exact h
  | activate root => rw [act, activate_of_initialized h, h]
  | setOption key value => exact h
  | unsetOption key => exact h
  | service capability name =>
    rw [act, service, registry?_of_initialized h]
    simp only [bind, Except.bind]
    cases c.registry.require capability name <;> exact h
  | handleOptions =>
    rw [act, handleOptions, registry?_of_initialized h]
    exact h
  | work f =>
    rw [act, registry?_of_initialized h]
    exact h

theorem initialized_run (h : c.initialized = true) (actions : List (Action κ α)) :
    (c.run actions).initialized = true := by
  induction actions generalizing c with
  | nil => exact h
  | cons x rest ih => exact ih (initialized_act h x)

theorem run_append (c : Context κ α) (xs ys : List (Action κ α)) :
    c.run (xs ++ ys) = (c.run xs).run ys := List.foldl_append

/-- After any actions nothing is active, or one of them was an attempt that succeeded. -/
theorem idle_run (actions : List (Action κ α)) :
    (run {} actions).Idle (actions.filterMap Action.plugin?) ∨
      (run {} actions : Context κ α).initialized = true ∧ ∃ before root after,
        actions = before ++ .activate root :: after ∧ ((run {} before).activate root).1 = .ok () := by
  induction actions using List.reverseRecOn with
  | nil => exact .inl idle_empty
  | append_singleton xs x ih =>
    rw [run_append]
    rcases ih with hidle | ⟨hinit, before, root, after, rfl, hok⟩
    · rcases idle_act hidle x with hnext | ⟨⟨root, rfl, hok⟩, hinit⟩
      · have hlast : [x].filterMap Action.plugin? = x.plugin?.toList := by
          cases hx : x.plugin? <;> simp [hx]
        rw [List.filterMap_append, hlast]
        exact .inl hnext
      · exact .inr ⟨hinit, xs, root, [], rfl, hok⟩
    · exact .inr ⟨initialized_act hinit x, before, root, after ++ [x], by simp, hok⟩

/-- Initialization activates every plugin once. As long as no attempt has succeeded, the registry is
refused and nothing is active; an attempt that fails changes only how often plugins have been called;
the one that succeeds has called every plugin handed over, in order, from an empty registry on; and
later ones change nothing. -/
theorem initialization_activates_once (actions : List (Action κ α)) :
    let c : Context κ α := run {} actions
    let handed := actions.filterMap Action.plugin?
    (c.initialized = true ↔ ∃ before root after, actions = before ++ .activate root :: after ∧
      ((run {} before : Context κ α).activate root).1 = .ok ()) ∧
    (c.initialized = false →
      c.Idle handed ∧ c.registry? = .error .notInitialized ∧
      (∀ capability name, c.service capability name = .error .notInitialized) ∧
      c.handleOptions = .error .notInitialized ∧
      ∀ root, ((c.activate root).1 = .ok () ↔ ∃ r, HeldPlugin.Activates c.held {} r) ∧
        (∀ c', c.activate root = (.ok (), c') → c.Started c' root handed) ∧
        ∀ e c', c.activate root = (.error e, c') → ∃ held, HeldPlugin.Stops c.held {} e held ∧
          held.map (·.plugin) = handed ∧ c' = { c with held := held }) ∧
    (c.initialized = true → ∀ root, c.activate root = (.ok (), c)) := by
  intro c handed
  have hrun := idle_run (κ := κ) (α := α) actions
  refine ⟨⟨fun hinit => ?_, ?_⟩, fun hnone => ?_, fun hinit root => activate_of_initialized hinit root⟩
  · rcases hrun with hidle | ⟨-, hsuccess⟩
    · cases hidle.initialized.symm.trans hinit
    · exact hsuccess
  · rintro ⟨before, root, after, rfl, hok⟩
    have hcut : c = ((run {} before).act (.activate root)).run after := run_append {} before _
    rw [hcut]
    exact initialized_run (initialized_of_activate hok) after
  · have hidle : c.Idle handed := by
      rcases hrun with hidle | ⟨hinit, -⟩
      · exact hidle
      · cases hnone.symm.trans hinit
    exact ⟨hidle, registry?_of_not_initialized hnone, service_of_not_initialized hnone,
      handleOptions_of_not_initialized hnone, fun root =>
        ⟨activate_eq_ok_iff hnone root, fun _ => hidle.started, fun _ _ => hidle.stopped⟩⟩

end

theorem initialization_activates_once_retried :
    let steady : Plugin Facility (Component Unit) :=
      .always "steady" "" fun r => r.addShared .embedding "shift" .embedding
    let faulty : Plugin Facility (Component Unit) := {
      name := "faulty"
      register := fun calls r =>
        if calls = 0 then (.error (.plugin "not ready"), r.addShared .embedding "left" .embedding)
        else (.ok (), r) }
    let c := run {} [.withPlugin steady, .addPlugin faulty, .activate "first"]
    ∃ c', c.activate "second" = (.ok (), c') ∧ c.Started c' "second" [steady, faulty] ∧
      c'.registry.size = 1 ∧ c'.activate "third" = (.ok (), c') := by
  intro steady faulty c
  obtain ⟨-, hidle, -⟩ :=
    initialization_activates_once [.withPlugin steady, .addPlugin faulty, .activate "first"]
  obtain ⟨-, -, hlater⟩ := initialization_activates_once
    [.withPlugin steady, .addPlugin faulty, .activate "first", .activate "second"]
  obtain ⟨-, -, -, -, hsecond⟩ := hidle rfl
  exact ⟨_, rfl, (hsecond "second").2.1 _ rfl, rfl, hlater rfl "third"⟩

end Context

end QuantumKernels
