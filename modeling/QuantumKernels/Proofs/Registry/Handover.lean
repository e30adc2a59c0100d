import QuantumKernels.Proofs.Registry.Initialization

/-!
# Plugins handed over

A plugin handed over before the initialization waits for it. After the initialization `addPlugin`
calls the plugin at once; `withPlugin` keeps it and never calls it.
-/
namespace QuantumKernels

variable {κ α : Type}

namespace HeldPlugin

theorem Activates.append {xs ys : List (HeldPlugin κ α)} {r s t : Registry κ α}
    (hxs : Activates xs r s) (hys : Activates ys s t) : Activates (xs ++ ys) r t := by
  induction hxs with
  | nil => exact hys
  | cons h _ ih => exact .cons h (ih hys)

/-- Plugins that have not been called yet. -/
def fresh (plugins : List (Plugin κ α)) : List (HeldPlugin κ α) := plugins.map (⟨·, 0⟩)

theorem fresh_append (xs ys : List (Plugin κ α)) : fresh (xs ++ ys) = fresh xs ++ fresh ys :=
  List.map_append

end HeldPlugin

namespace Context

/-- An action that hands over a plugin, or initializes. -/
def Action.Hands : Action κ α → Prop
  | withPlugin _ | addPlugin _ | activate _ => True
  | setOption .. | unsetOption _ | service .. | handleOptions | work _ => False

/-- No plugin that the action calls fails. -/
def Succeeds (c : Context κ α) : Action κ α → Prop
  | .addPlugin p => (c.addPlugin p).1 = .ok ()
  | .activate root => (c.activate root).1 = .ok ()
  | _ => True

/-- The plugin of an action, if it is called at once or waits for the initialization. -/
def called? (c : Context κ α) : Action κ α → Option (Plugin κ α)
  | .withPlugin p => if c.initialized then none else some p
  | x => x.plugin?

/-- These plugins wait for the initialization, none of them called yet. -/
structure Waits (c : Context κ α) (plugins : List (Plugin κ α)) : Prop where
  initialized : c.initialized = false
  held : c.held = HeldPlugin.fresh plugins

/-- These plugins and no others make up the registry, each registered once, in this order, and they
are reported in this order. -/
structure Serves (c : Context κ α) (plugins : List (Plugin κ α)) : Prop where
  initialized : c.initialized = true
  registry : HeldPlugin.Activates (HeldPlugin.fresh plugins) {} c.registry
  active : c.active = plugins.map fun p => ⟨p.name, p.description, none⟩

theorem waits_empty : ({} : Context κ α).Waits [] := ⟨rfl, rfl⟩

variable {c : Context κ α} {plugins : List (Plugin κ α)}

theorem Waits.withPlugin (h : c.Waits plugins) (p : Plugin κ α) :
    (c.withPlugin p).Waits (plugins ++ [p]) := by
  refine ⟨h.initialized, ?_⟩
  rw [Context.withPlugin, h.held, HeldPlugin.fresh_append]
  rfl

theorem Waits.addPlugin (h : c.Waits plugins) (p : Plugin κ α) :
    (c.addPlugin p).2.Waits (plugins ++ [p]) := by
  rw [Context.addPlugin, h.initialized]
  exact h.withPlugin p

theorem Waits.activate (h : c.Waits plugins) {root : String} (hok : (c.activate root).1 = .ok ()) :
    (c.activate root).2.Serves plugins := by
  obtain ⟨r, hr⟩ := (activate_eq_ok_iff h.initialized root).mp hok
  rw [activate_of_activates h.initialized hr]
  refine ⟨rfl, h.held ▸ hr, ?_⟩
  have hinfo : (HeldPlugin.fresh plugins).map HeldPlugin.info =
      plugins.map fun p => ⟨p.name, p.description, none⟩ := List.map_map
  rw [← hinfo, ← h.held]
  rfl

/-- A plugin that is handed over to an initialized context and does not fail. -/
theorem exists_of_addPlugin_ok (h : c.initialized = true) {p : Plugin κ α}
    (hok : (c.addPlugin p).1 = .ok ()) :
    ∃ r, p.register 0 c.registry = (.ok (), r) ∧ c.addPlugin p = (.ok (), { c with
      registry := r, active := c.active ++ [⟨p.name, p.description, none⟩], held := c.held ++ [⟨p, 1⟩] }) := by
  rw [Context.addPlugin, if_pos h, HeldPlugin.call] at hok ⊢
  rcases hregister : p.register 0 c.registry with ⟨outcome, r⟩
  cases outcome with
  | error e =>
    rw [hregister] at hok
    cases hok
  | ok _ => exact ⟨r, rfl, rfl⟩

theorem Serves.addPlugin (h : c.Serves plugins) {p : Plugin κ α} (hok : (c.addPlugin p).1 = .ok ()) :
    (c.addPlugin p).2.Serves (plugins ++ [p]) := by
  obtain ⟨r, hregister, hadd⟩ := exists_of_addPlugin_ok h.initialized hok
  rw [hadd]
  refine ⟨h.initialized, ?_, ?_⟩
  · rw [HeldPlugin.fresh_append]
    exact h.registry.append (.cons hregister .nil)
  · rw [List.map_append, ← h.active]
    rfl

/-- What becomes of the plugins handed over: they wait, or they serve. -/
def Carries (c : Context κ α) (plugins : List (Plugin κ α)) : Prop := c.Waits plugins ∨ c.Serves plugins

section

variable [DecidableEq κ] [Capability κ] [Configurable α]

/-- An action adds the plugin that it gets called to those that wait or serve. -/
theorem Carries.act (h : c.Carries plugins) {x : Action κ α} (hx : x.Hands) (hok : c.Succeeds x) :
    (c.act x).Carries (plugins ++ (c.called? x).toList) := by
  cases x with
  | withPlugin p =>
    rcases h with h | h
    · rw [called?, h.initialized]
      exact .inl (h.withPlugin p)
    · have hignored : c.called? (.withPlugin p) = none := if_pos h.initialized
      rw [hignored, Option.toList_none, List.append_nil]
      exact .inr ⟨h.initialized, h.registry, h.active⟩
  | addPlugin p => exact h.imp (·.addPlugin p) (·.addPlugin hok)
  | activate root =>
    have hnone : c.called? (.activate root) = none := rfl
    rw [hnone, Option.toList_none, List.append_nil]
    rcases h with h | h
    · exact .inr (h.activate hok)
    · rw [Context.act, activate_of_initialized h.initialized]
      exact .inr h
  | setOption | unsetOption | service | handleOptions | work => exact hx.elim

/-- The actions hand over plugins or initialize, and no plugin that they call fails. -/
def Smooth (c : Context κ α) : List (Action κ α) → Prop
  | [] => True
  | x :: rest => x.Hands ∧ c.Succeeds x ∧ (c.act x).Smooth rest

/-- The plugins that actions get called, in the order in which they are handed over. -/
def called (c : Context κ α) : List (Action κ α) → List (Plugin κ α)
  | [] => []
  | x :: rest => (c.called? x).toList ++ (c.act x).called rest

/-- The plugins that actions hand over. -/
def handed (actions : List (Action κ α)) : List (Plugin κ α) := actions.filterMap Action.plugin?

theorem Carries.run {actions : List (Action κ α)} (h : c.Carries plugins) (hsmooth : c.Smooth actions) :
    (c.run actions).Carries (plugins ++ c.called actions) := by
  induction actions generalizing c plugins with
  | nil =>
    rw [called, List.append_nil]
    exact h
  | cons x rest ih =>
    obtain ⟨hx, hok, hrest⟩ := hsmooth
    rw [called, ← List.append_assoc]
    exact ih (h.act hx hok) hrest

theorem held_act {x : Action κ α} (hx : x.Hands) (hok : c.Succeeds x) :
    (c.act x).held.map (·.plugin) = c.held.map (·.plugin) ++ x.plugin?.toList := by
  cases x with
  | withPlugin p => exact List.map_append
  | addPlugin p =>
    cases hinit : c.initialized with
    | true =>
      obtain ⟨r, -, hadd⟩ := exists_of_addPlugin_ok hinit hok
      rw [Context.act, hadd]
      exact List.map_append
    | false =>
      rw [Context.act, Context.addPlugin, hinit]
      exact List.map_append
  | activate root =>
    rw [Action.plugin?, Option.toList_none, List.append_nil]
    cases hinit : c.initialized with
    | true => rw [Context.act, activate_of_initialized hinit]
    | false =>
      obtain ⟨r, hr⟩ := (activate_eq_ok_iff hinit root).mp hok
      rw [Context.act, activate_of_activates hinit hr, activated, List.map_map]
      rfl
  | setOption | unsetOption | service | handleOptions | work => exact hx.elim

omit [DecidableEq κ] [Capability κ] [Configurable α] in
theorem handed_cons (x : Action κ α) (rest : List (Action κ α)) :
    handed (x :: rest) = x.plugin?.toList ++ handed rest := by
  rw [handed, handed, List.filterMap_cons]
  cases x.plugin? <;> rfl

/-- A plugin that is handed over is kept, even if it is not called. -/
theorem held_run {actions : List (Action κ α)} (hsmooth : c.Smooth actions) :
    (c.run actions).held.map (·.plugin) = c.held.map (·.plugin) ++ handed actions := by
  induction actions generalizing c with
  | nil => exact (List.append_nil _).symm
  | cons x rest ih =>
    obtain ⟨hx, hok, hrest⟩ := hsmooth
    rw [handed_cons, ← List.append_assoc, ← held_act hx hok]
    exact ih hrest

omit [DecidableEq κ] [Capability κ] [Configurable α] in
/-- An action gets its plugin called, unless it is `withPlugin` in an initialized context. -/
theorem called?_eq_plugin? {x : Action κ α} (h : ∀ p, x = .withPlugin p → c.initialized = false) :
    c.called? x = x.plugin? := by
  cases x with
  | withPlugin p =>
    rw [called?, h p rfl]
    rfl
  | addPlugin | activate | setOption | unsetOption | service | handleOptions | work => rfl

theorem called_eq_handed {actions : List (Action κ α)}
    (h : ∀ before p after, actions = before ++ .withPlugin p :: after → (c.run before).initialized = false) :
    c.called actions = handed actions := by
  induction actions generalizing c with
  | nil => rfl
  | cons x rest ih =>
    have hfirst : c.called? x = x.plugin? :=
      called?_eq_plugin? fun p hx => h [] p rest (by rw [hx]; rfl)
    have hrest : (c.act x).called rest = handed rest :=
      ih fun before p after heq => h (x :: before) p after (by rw [heq]; rfl)
    rw [called, hfirst, hrest, handed_cons]

omit [DecidableEq κ] [Capability κ] [Configurable α] in
theorem called?_sublist_plugin? (c : Context κ α) (x : Action κ α) :
    (c.called? x).toList.Sublist x.plugin?.toList := by
  cases x with
  | withPlugin p =>
    rw [called?]
    split
    · exact List.nil_sublist _
    · exact .refl _
  | addPlugin | activate | setOption | unsetOption | service | handleOptions | work => exact .refl _

theorem called_sublist_handed (c : Context κ α) (actions : List (Action κ α)) :
    (c.called actions).Sublist (handed actions) := by
  induction actions generalizing c with
  | nil => exact .slnil
  | cons x rest ih =>
    rw [called, handed_cons]
    exact (c.called?_sublist_plugin? x).append (ih (c.act x))

/-- A plugin that comes by withPlugin to an initialized context is missing. -/
theorem length_called_lt (c : Context κ α) {before : List (Action κ α)} (p : Plugin κ α)
    (after : List (Action κ α)) (h : (c.run before).initialized = true) :
    (c.called (before ++ .withPlugin p :: after)).length <
      (handed (before ++ .withPlugin p :: after)).length := by
  induction before generalizing c with
  | nil =>
    have hrest := ((c.act (.withPlugin p)).called_sublist_handed after).length_le
    have hignored : c.called? (.withPlugin p) = none := if_pos h
    rw [List.nil_append, called, hignored, handed_cons, Action.plugin?, Option.toList_none,
      Option.toList_some, List.nil_append, List.singleton_append, List.length_cons]
    omega
  | cons x rest ih =>
    have hrest := ih (c.act x) h
    have hfirst := (c.called?_sublist_plugin? x).length_le
    rw [List.cons_append, called, handed_cons, List.length_append, List.length_append]
    omega

/-- Plugins are called in the order in which they are handed over, one that comes by withPlugin to an
initialized context excepted: that one is kept and never called. -/
theorem handed_plugins_serve_iff {actions : List (Action κ α)}
    (hsmooth : ({} : Context κ α).Smooth actions)
    (hinit : (run {} actions : Context κ α).initialized = true) :
    let c : Context κ α := run {} actions
    c.held.map (·.plugin) = handed actions ∧ c.Serves (({} : Context κ α).called actions) ∧
      (c.Serves (handed actions) ↔ ∀ before p after, actions = before ++ .withPlugin p :: after →
        (run {} before : Context κ α).initialized = false) := by
  intro c
  have hserves : c.Serves (({} : Context κ α).called actions) := by
    rcases Carries.run (.inl waits_empty) hsmooth with hwaits | hserves
    · cases hwaits.initialized.symm.trans hinit
    · exact hserves
  refine ⟨held_run hsmooth, hserves, fun hall before p after hactions => ?_, fun hearly => ?_⟩
  · by_contra hlate
    have hlt := length_called_lt {} p after (Bool.of_not_eq_false hlate)
    have hlengths := congrArg List.length (hserves.active.symm.trans hall.active)
    rw [List.length_map, List.length_map, hactions] at hlengths
    omega
  · rw [← called_eq_handed hearly]
    exact hserves

end

/-- One plugin waits, one is added late, and the last one is forgotten. -/
theorem handed_plugins_serve_iff_forgotten :
    let shift (name : String) : Plugin Facility (Component Unit) :=
      .always name "" fun r => r.addShared .embedding name .embedding
    let actions : List (Action Facility (Component Unit)) :=
      [.withPlugin (shift "a"), .activate "root", .addPlugin (shift "b"), .withPlugin (shift "c")]
    let c := run {} actions
    c.Serves [shift "a", shift "b"] ∧ ¬ c.Serves [shift "a", shift "b", shift "c"] ∧
      c.held.length = 3 := by
  intro shift actions c
  have hsmooth : Smooth {} actions :=
    ⟨trivial, trivial, trivial, rfl, trivial, rfl, trivial, trivial, trivial⟩
  obtain ⟨hheld, hserves, hiff⟩ := handed_plugins_serve_iff hsmooth rfl
  refine ⟨hserves, fun hall => ?_, ?_⟩
  · have hearly := hiff.mp hall (actions.take 3) (shift "c") [] rfl
    cases hearly
  · rw [← List.length_map, hheld]
    rfl

end Context

end QuantumKernels
