import QuantumKernels.Proofs.Workbench.Tasks
import QuantumKernels.Proofs.Accelerator.Batch

/-!
# What a bench serves

A bench starts if its configuration is valid and no plugin fails. From then on a component is found for
each name in the inventory and for no other, and it is one that can be used for what it was looked up
for. Stages are made anew for each lookup, from their template and the options of the moment.
-/
namespace QuantumKernels

variable {ω : Type}

/-- A component can be looked up for a facility; anything may take options. -/
def Component.Fits (f : Facility) (c : Component ω) : Prop := f = .options ∨ c.facility = f

theorem Component.Resembles.fits {c d : Component ω} (h : c.Resembles d) {f : Facility} (hc : c.Fits f) :
    d.Fits f := hc.imp_right h.facility.trans

theorem Component.exists_accelerator? (random : RandomSource) {c : Component ω} (hc : c.Fits .accelerator) :
    ∃ a, c.accelerator? random = some a := by
  cases c with
  | simulator s => exact ⟨_, rfl⟩
  | service link d => exact ⟨_, rfl⟩
  | _ => rcases hc with hc | hc <;> cases hc

namespace Registry

/-- What each provider leads to can be looked up for its facility. -/
structure Typed (r : Registry Facility (Component ω)) : Prop where
  canonical : ∀ f, ∀ p ∈ r.providersOf f, ∃ c, r.object? p.canonical = some c ∧ c.Fits f
  template : ∀ f, ∀ p ∈ r.providersOf f, ∀ c, p.template = some c → c.Fits f

variable {r s : Registry Facility (Component ω)}

theorem typed_empty : ({} : Registry Facility (Component ω)).Typed :=
  ⟨fun _ _ hp => absurd hp List.not_mem_nil, fun _ _ hp => absurd hp List.not_mem_nil⟩

theorem Typed.continues (hr : r.Typed) (h : r.Continues s) : s.Typed := by
  refine ⟨fun f p hp => ?_, fun f p hp => ?_⟩ <;> rw [h.providersOf] at hp
  · obtain ⟨c, hc, hfits⟩ := hr.canonical f p hp
    obtain ⟨d, hd, hcd⟩ := h.objects _ c hc
    exact ⟨d, hd, hcd.fits hfits⟩
  · exact hr.template f p hp

theorem Typed.register (hr : r.Typed) {p : Provider Facility (Component ω)}
    (hcanonical : ∃ c, r.object? p.canonical = some c ∧ c.Fits p.capability)
    (htemplate : ∀ c, p.template = some c → c.Fits p.capability) : (r.register p).Typed := by
  have hmem : ∀ f, ∀ q ∈ (r.register p).providersOf f, q ∈ r.providersOf f ∨ q = p ∧ p.capability = f := by
    intro f q hq
    rw [providersOf_register, List.mem_append] at hq
    refine hq.imp_right fun hq => ?_
    split_ifs at hq with hf
    · exact ⟨List.mem_singleton.mp hq, hf⟩
    · exact absurd hq List.not_mem_nil
  refine ⟨fun f q hq => ?_, fun f q hq => ?_⟩
  · rcases hmem f q hq with hq | ⟨rfl, rfl⟩
    · exact hr.canonical f q hq
    · exact hcanonical
  · rcases hmem f q hq with hq | ⟨rfl, rfl⟩
    · exact hr.template f q hq
    · exact htemplate

theorem object?_allocate_self (r : Registry Facility (Component ω)) (c : Component ω) :
    (r.allocate c).2.object? (r.allocate c).1 = some c := by
  rw [object?_allocate, if_pos rfl]

/-- A provider of a new object. -/
theorem Typed.addShared (hr : r.Typed) {f : Facility} {c : Component ω} (hc : c.Fits f) (name : String) :
    (r.addShared f name c).Typed :=
  (hr.continues (continues_allocate r c)).register ⟨c, object?_allocate_self r c, hc⟩ nofun

theorem Typed.addAnonymous (hr : r.Typed) {f : Facility} {c : Component ω} (hc : c.Fits f) :
    (r.addAnonymous f c).Typed :=
  (hr.continues (continues_allocate r c)).register ⟨c, object?_allocate_self r c, hc⟩ nofun

theorem Typed.addCloneable (hr : r.Typed) {f : Facility} {c : Component ω} (hc : c.Fits f) (name : String) :
    (r.addCloneable f name c).Typed := by
  refine (hr.continues (continues_allocate r c)).register ⟨c, object?_allocate_self r c, hc⟩ fun d hd => ?_
  cases hd
  exact hc

/-- A new object that is looked up under a name and also takes options. -/
theorem Typed.addBoth (hr : r.Typed) {f : Facility} {c : Component ω} (hc : c.Fits f) (name : String) :
    ((r.addShared f name c).register ⟨.options, none, (r.allocate c).1, none⟩).Typed :=
  (hr.addShared hc name).register ⟨c, object?_allocate_self r c, .inl rfl⟩ nofun

theorem Typed.foldl {α : Type} {g : Registry Facility (Component ω) → α → Registry Facility (Component ω)}
    (hg : ∀ r a, r.Typed → (g r a).Typed) (l : List α) (hr : r.Typed) : (l.foldl g r).Typed := by
  induction l generalizing r with
  | nil => exact hr
  | cons a rest ih => exact ih (hg r a hr)

/-- Under the name of a listed provider stands a component that can be used. -/
theorem Typed.get? (hr : r.Typed) {f : Facility} {name : String} {h : Handle}
    (hget : r.get? f name = some (h, s)) : ∃ c, s.object? h = some c ∧ c.Fits f := by
  obtain ⟨p, hp, hfound⟩ := Option.map_eq_some_iff.mp hget
  have hmem : p ∈ r.providersOf f := by
    rw [find?, List.findRev?_eq_find?_reverse] at hp
    exact List.mem_reverse.mp (List.mem_of_find?_eq_some hp)
  unfold resolve at hfound
  split at hfound
  · rename_i c htemplate
    cases hfound
    exact ⟨c, object?_allocate_self r c, hr.template f p hmem c htemplate⟩
  · cases hfound
    exact hr.canonical f p hmem

end Registry

/-! ## Plugins -/

namespace Plugin

/-- A plugin registers each component for what it is. -/
def Proper (p : Plugin Facility (Component ω)) : Prop :=
  ∀ n r, r.Typed → (p.register n r).2.Typed

theorem proper_compile : (compile : Plugin Facility (Component ω)).Proper := by
  intro n r hr
  have hcompiler := hr.addShared (c := .compiler {}) (.inr rfl) Wire.Compiler.name
  have hfamilies := Registry.Typed.foldl (fun r kind (hr : r.Typed) =>
    hr.addShared (c := .family kind) (.inr rfl) kind.familyName) [Kind.gate, Kind.anneal] hcompiler
  have hoptimizer := hfamilies.addBoth (c := .optimizer .default) (.inr rfl) Optimizer.name
  have hgenerators := Registry.Typed.foldl (fun r g (hr : r.Typed) =>
    hr.addShared (c := .generator g) (.inr rfl) g.name) [Fourier.mk false, Fourier.mk true] hoptimizer
  exact hgenerators.addShared (c := .embedding) (.inr rfl) Embedding.shiftName

theorem proper_decorators : (decorators : Plugin Facility (Component ω)).Proper := by
  intro n r hr
  have hnamed := Registry.Typed.foldl (fun r s (hr : r.Typed) =>
    hr.addCloneable (c := .stage s) (.inr rfl) s.name) StageSettings.builtIn hr
  exact Registry.Typed.foldl (fun r s (hr : r.Typed) => hr.addAnonymous (c := .stage s) (.inl rfl))
    StageSettings.builtIn hnamed

theorem proper_simulator : (simulator : Plugin Facility (Component ω)).Proper := fun _ _ hr =>
  hr.addBoth (c := .simulator {}) (.inr rfl) LocalSettings.name

theorem proper_jobService (link : Remote.Link ω) : (jobService link).Proper := fun _ _ hr =>
  hr.addShared (.inr rfl) _

theorem proper_builtIn : ∀ p ∈ (builtIn : List (Plugin Facility (Component ω))), p.Proper := by
  intro p hp
  simp only [builtIn, List.mem_cons, List.not_mem_nil, or_false] at hp
  rcases hp with rfl | rfl | rfl | rfl
  · exact proper_compile
  · exact proper_decorators
  · exact proper_simulator
  · exact proper_jobService .offline

end Plugin

theorem HeldPlugin.Activates.typed {held : List (HeldPlugin Facility (Component ω))}
    {r s : Registry Facility (Component ω)} (h : Activates held r s)
    (hproper : ∀ p ∈ held, p.plugin.Proper) (hr : r.Typed) : s.Typed := by
  induction h with
  | nil => exact hr
  | @cons p rest r s t hregister _ ih =>
    have hs := hproper p (by simp) p.calls r hr
    rw [hregister] at hs
    exact ih (fun q hq => hproper q (by simp [hq])) hs

/-! ## Starting -/

namespace Workbench

/-- Plugins as they are handed over. -/
def fresh (plugins : List (Plugin Facility (Component ω))) : List (HeldPlugin Facility (Component ω)) :=
  plugins.map fun p => ⟨p, 0⟩

/-- How a plugin is listed that was handed over. -/
def infoOf (p : Plugin Facility (Component ω)) : PluginInfo := ⟨p.name, p.description, none⟩

/-- A bench as it is started: each plugin has been called once, in order, and what has been registered
has been offered the options of the configuration, if there are any. -/
structure Started (c : Configuration) (root : String) (plugins : List (Plugin Facility (Component ω)))
    (w : Workbench ω) : Prop where
  configuration : w.configuration = c
  initialized : w.context.initialized = true
  root : w.context.root = some (c.root.getD root)
  options : w.context.options = c.options
  active : w.context.active = plugins.map infoOf
  registry : ∃ r, HeldPlugin.Activates (fresh plugins) {} r ∧
    w.context.registry = if c.options.isEmpty then r else (r.handleOptions c.options).1

theorem foldl_withPlugin (plugins : List (Plugin Facility (Component ω)))
    (c : Context Facility (Component ω)) :
    plugins.foldl Context.withPlugin c = { c with held := c.held ++ fresh plugins } := by
  induction plugins generalizing c with
  | nil => simp [fresh]
  | cons p rest ih =>
    rw [List.foldl_cons, ih]
    simp [Context.withPlugin, fresh]

theorem foldl_setOption (entries : List (String × String)) (c : Context Facility (Component ω)) :
    entries.foldl (fun c (k, v) => c.setOption k v) c =
      { c with options := c.options.insertMany entries } := by
  induction entries generalizing c with
  | nil => rfl
  | cons e rest ih => rw [List.foldl_cons, ih]; rfl

theorem activated_cases (root : String) (plugins : List (Plugin Facility (Component ω))) :
    (∃ e held, HeldPlugin.Stops (fresh plugins) {} e held ∧ activated root plugins = .error (.registry e)) ∨
    ∃ r, HeldPlugin.Activates (fresh plugins) {} r ∧
      activated root plugins = .ok (({ held := fresh plugins } : Context Facility (Component ω)).activated root r) := by
  have hheld := foldl_withPlugin plugins ({} : Context Facility (Component ω))
  rw [List.nil_append] at hheld
  unfold activated
  rw [hheld]
  rcases Context.activate_cases (c := { held := fresh plugins }) rfl root with ⟨r, hr, h⟩ | ⟨e, held, he, h⟩
  · exact .inr ⟨r, hr, by rw [h]⟩
  · exact .inl ⟨e, held, he, by rw [h]⟩

/-- A bench starts if its configuration is valid and no plugin fails. -/
theorem start_cases (c : Configuration) (root : String) (more : List (Plugin Facility (Component ω))) :
    (∃ fault, c.validate = .error fault ∧ start c root more = .error (.configuration fault)) ∨
    (c.validate = .ok () ∧ ∃ e held, HeldPlugin.Stops (fresh (Plugin.builtIn ++ more)) {} e held ∧
      start c root more = .error (.registry e)) ∨
    (c.validate = .ok () ∧ ∃ w, start c root more = .ok w ∧ w.Started c root (Plugin.builtIn ++ more)) := by
  unfold start
  rcases hvalidate : c.validate with fault | ⟨⟩
  · exact .inl ⟨fault, rfl, rfl⟩
  refine .inr ?_
  rcases activated_cases (c.root.getD root) (Plugin.builtIn ++ more) with ⟨e, held, he, h⟩ | ⟨r, hr, h⟩
  · rw [h]
    exact .inl ⟨rfl, e, held, he, rfl⟩
  · rw [h]
    refine .inr ⟨rfl, ?_⟩
    have hoptions : (∅ : Options).insertMany c.options.entries = c.options := c.options.ofList_entries
    have hactive : (fresh (Plugin.builtIn ++ more)).map HeldPlugin.info =
        (Plugin.builtIn ++ more).map infoOf := by
      rw [fresh, List.map_map]
      rfl
    simp only [Except.mapError, bind, Except.bind, foldl_setOption]
    cases hempty : c.options.isEmpty with
    | true =>
      refine ⟨_, rfl, rfl, rfl, rfl, hoptions, hactive, r, hr, ?_⟩
      rw [hempty]
      rfl
    | false =>
      simp only [Bool.false_eq_true, if_false]
      rw [Context.handleOptions_of_initialized rfl]
      refine ⟨_, rfl, rfl, rfl, rfl, hoptions, hactive, r, hr, ?_⟩
      rw [hempty]
      exact congrArg (fun options => (r.handleOptions options).1) hoptions

/-- The components can be looked up, each for what it is. -/
structure Sound (w : Workbench ω) : Prop where
  initialized : w.context.initialized = true
  typed : w.context.registry.Typed

theorem Sound.keeps {w w' : Workbench ω} (hw : w.Sound) (h : w.Keeps w') : w'.Sound := by
  refine ⟨?_, hw.typed.continues h.registry⟩
  rw [h.context]
  exact hw.initialized

theorem Sound.run {w : Workbench ω} (hw : w.Sound) (tasks : List (Task ω)) : (w.run tasks).Sound :=
  hw.keeps (keeps_run w tasks).1

theorem Started.sound {c : Configuration} {root : String} {plugins : List (Plugin Facility (Component ω))}
    {w : Workbench ω} (hw : w.Started c root plugins) (hproper : ∀ p ∈ plugins, p.Proper) : w.Sound := by
  obtain ⟨r, hr, hregistry⟩ := hw.registry
  have htyped : r.Typed := hr.typed (List.forall_mem_map.mpr hproper) Registry.typed_empty
  refine ⟨hw.initialized, ?_⟩
  rw [hregistry]
  split_ifs
  · exact htyped
  · exact htyped.continues (Registry.continues_handleOptions r c.options)

/-! ## Built-in plugins -/

/-- The registry that the built-in plugins make. -/
def builtInRegistry : Registry Facility (Component ω) :=
  Plugin.builtIn.foldl (fun r p => (p.register 0 r).2) {}

theorem activates_builtIn :
    HeldPlugin.Activates (fresh Plugin.builtIn) {} (builtInRegistry : Registry Facility (Component ω)) :=
  .cons rfl (.cons rfl (.cons rfl (.cons rfl .nil)))

theorem start_builtIn {c : Configuration} (hc : c.validate = .ok ()) (root : String) :
    ∃ w : Workbench ω, start c root = .ok w ∧ w.Started c root Plugin.builtIn := by
  rcases start_cases (ω := ω) c root [] with ⟨fault, hfault, -⟩ | ⟨-, e, held, he, -⟩ | ⟨-, w, hw⟩
  · cases hc.symm.trans hfault
  · have h := HeldPlugin.callAll_of_stops he
    rw [List.append_nil, HeldPlugin.callAll_of_activates activates_builtIn] at h
    cases h
  · rw [List.append_nil] at hw
    exact ⟨w, hw⟩

/-- The names that are listed once the built-in plugins are active. -/
def builtInNames : Facility → List String
  | .compiler => [Wire.Compiler.name]
  | .family => [Kind.gate.familyName, Kind.anneal.familyName]
  | .transformation => [Optimizer.name]
  | .generator => [(Fourier.mk false).name, (Fourier.mk true).name]
  | .embedding => [Embedding.shiftName]
  | .accelerator => [LocalSettings.name, Remote.JobService.name]
  | .stage => StageSettings.builtIn.map StageSettings.name
  | .options => []

theorem ids_builtInRegistry (f : Facility) :
    (builtInRegistry : Registry Facility (Component ω)).ids f = builtInNames f := by
  cases f <;> cbv

theorem Started.continues {c : Configuration} {root : String} {w : Workbench ω}
    (hw : w.Started c root Plugin.builtIn) : builtInRegistry.Continues w.context.registry := by
  obtain ⟨r, hr, hregistry⟩ := hw.registry
  have h := (HeldPlugin.callAll_of_activates hr).symm.trans (HeldPlugin.callAll_of_activates activates_builtIn)
  obtain rfl : r = builtInRegistry := by
    injection h with h
    injection h
  rw [hregistry]
  split_ifs
  · exact .refl _
  · exact Registry.continues_handleOptions ..

/-! ## Looking up -/

/-- On a sound bench a lookup finds a component that can be used, or the name is not listed. -/
theorem Sound.component_run {w : Workbench ω} (hw : w.Sound) (f : Facility) (name : String) :
    (name ∉ w.context.registry.ids f ∧ (component f name).run w = (.error (missing f name), w)) ∨
    (name ∈ w.context.registry.ids f ∧ ∃ h c r, w.context.registry.Continues r ∧ c.Fits f ∧
      (component f name).run w = (.ok (h, c), w.inRegistry r)) := by
  rcases Workbench.component_run f name w with ⟨hinit, -⟩ | ⟨-, hname, hrun⟩ | ⟨h, r, -, hget, hrun⟩
  · rw [hw.initialized] at hinit
    cases hinit
  · exact .inl ⟨hname, hrun⟩
  · obtain ⟨c, hc, hfits⟩ := hw.typed.get? hget
    refine .inr ⟨(Registry.exists_get?_iff _ f name).mp ⟨_, hget⟩, h, c, r, Registry.continues_get? hget, hfits, ?_⟩
    rw [hrun, hc]
    rfl

variable {α β : Type}

/-- What is not found has been asked for and is not listed; and where something is not listed that is
asked for, the outcome is a failure. -/
def Reports (r : Registry Facility (Component ω)) (asked : List (Facility × String))
    (outcome : Except WorkbenchError α) : Prop :=
  (∀ name label, outcome = .error (.registry (.notFound name label)) →
    ∃ q ∈ asked, q.2 ∉ r.ids q.1 ∧ name = q.2 ∧ label = Capability.label q.1) ∧
  ((∃ q ∈ asked, q.2 ∉ r.ids q.1) → ∃ e, outcome = .error e)

/-- Work on any sound bench finds what is listed there and nothing else. -/
def Finds (x : Work ω α) (asked : List (Facility × String)) : Prop :=
  ∀ w : Workbench ω, w.Sound → Reports w.context.registry asked (x.run w).1

theorem finds_pure (a : α) : Finds (pure a : Work ω α) [] := by
  refine fun w hw => ⟨fun name label h => ?_, fun h => ?_⟩
  · cases h
  · obtain ⟨q, hq, -⟩ := h
    exact absurd hq List.not_mem_nil

theorem finds_throw {e : WorkbenchError} (he : ∀ name label, e ≠ .registry (.notFound name label)) :
    Finds (throw e : Work ω α) [] := by
  refine fun w hw => ⟨fun name label h => ?_, fun _ => ⟨e, rfl⟩⟩
  cases h
  exact absurd rfl (he name label)

theorem Finds.bind {x : Work ω α} {f : α → Work ω β} {asked later : List (Facility × String)}
    (hx : Finds x asked) (hkeeping : Keeping x) (hf : ∀ a, Finds (f a) later) :
    Finds (x >>= f) (asked ++ later) := by
  intro w hw
  obtain ⟨hreports, hfails⟩ := hx w hw
  obtain ⟨hkeeps, -⟩ := hkeeping w
  rw [run_bind]
  rcases hrun : x.run w with ⟨e | a, w'⟩ <;> rw [hrun] at hreports hfails hkeeps <;>
    dsimp only at hreports hfails hkeeps ⊢
  · refine ⟨fun name label h => ?_, fun _ => ⟨e, rfl⟩⟩
    cases h
    obtain ⟨q, hq, hunlisted⟩ := hreports name label rfl
    exact ⟨q, by simp [hq], hunlisted⟩
  · obtain ⟨hreports', hfails'⟩ := hf a w' (hw.keeps hkeeps)
    simp only [hkeeps.registry.ids] at hreports' hfails'
    refine ⟨fun name label h => ?_, fun h => ?_⟩
    · obtain ⟨q, hq, hunlisted⟩ := hreports' name label h
      exact ⟨q, by simp [hq], hunlisted⟩
    · obtain ⟨q, hq, hunlisted⟩ := h
      rcases List.mem_append.mp hq with hq | hq
      · obtain ⟨e, he⟩ := hfails ⟨q, hq, hunlisted⟩
        cases he
      · exact hfails' ⟨q, hq, hunlisted⟩

/-- A lookup, and work with what it has found. -/
theorem finds_component {f : Facility} {name : String} {g : Handle × Component ω → Work ω β}
    (hg : ∀ h c, c.Fits f → Finds (g (h, c)) []) : Finds (component f name >>= g) [(f, name)] := by
  intro w hw
  rw [run_bind]
  rcases hw.component_run f name with ⟨hname, hrun⟩ | ⟨hname, h, c, r, hr, hc, hrun⟩ <;> rw [hrun]
  · refine ⟨fun name' label h => ?_, fun _ => ⟨_, rfl⟩⟩
    cases h
    exact ⟨(f, name), by simp, hname, rfl, rfl⟩
  · obtain ⟨hreports, -⟩ := hg h c hc _ (hw.keeps (keeps_inRegistry hr))
    refine ⟨fun name' label h => ?_, fun h => ?_⟩
    · obtain ⟨q, hq, -⟩ := hreports name' label h
      exact absurd hq List.not_mem_nil
    · obtain ⟨q, hq, hunlisted⟩ := h
      rw [List.mem_singleton.mp hq] at hunlisted
      exact absurd hname hunlisted

theorem finds_get {g : Workbench ω → Work ω β} (hg : ∀ w, Finds (g w) []) : Finds (get >>= g) [] :=
  fun w hw => hg w w hw

theorem finds_stage (name : String) : Finds (stage name : Work ω StageSettings) [(.stage, name)] := by
  refine finds_component fun h c hc => ?_
  cases c with
  | stage s =>
    refine finds_get fun w => ?_
    cases s.apply w.context.options with
    | error e => exact finds_throw nofun
    | ok result => exact finds_pure _
  | _ => rcases hc with hc | hc <;> cases hc

theorem finds_mapM_stage (names : List String) :
    Finds (names.mapM stage : Work ω (List StageSettings)) (names.map fun name => (.stage, name)) := by
  induction names with
  | nil => exact finds_pure []
  | cons name rest ih =>
    rw [List.mapM_cons]
    have hlast : ∀ s, Finds (do return s :: (← rest.mapM stage) : Work ω (List StageSettings))
        (rest.map (fun name => (.stage, name)) ++ []) := fun s =>
      ih.bind (.mapM keeping_stage rest) fun stages => finds_pure (s :: stages)
    rw [List.append_nil] at hlast
    exact (finds_stage name).bind (keeping_stage name) hlast

theorem finds_compiler (name : String) : Finds (compiler name : Work ω Wire.Compiler) [(.compiler, name)] := by
  refine finds_component fun h c hc => ?_
  cases c with
  | compiler c => exact finds_pure c
  | _ => rcases hc with hc | hc <;> cases hc

theorem finds_transform (name : String) (p : Program) :
    Finds (transform name p : Work ω Program) [(.transformation, name)] := by
  refine finds_component fun h c hc => ?_
  cases c with
  | optimizer o => exact finds_pure _
  | _ => rcases hc with hc | hc <;> cases hc

theorem finds_generate (name : String) (parameters : List Parameter) :
    Finds (generate name parameters : Work ω Kernel) [(.generator, name)] := by
  refine finds_component fun h c hc => ?_
  cases c with
  | generator g =>
    cases hg : g.generateFrom parameters with
    | error e => simp only [hg]; exact finds_throw nofun
    | ok k => simp only [hg]; exact finds_pure k
  | _ => rcases hc with hc | hc <;> cases hc

theorem finds_accelerator (random : RandomSource) (name : String) :
    Finds (accelerator random name : Work ω (Accelerator (Remote.Network ω))) [(.accelerator, name)] := by
  intro w hw
  rcases hw.component_run .accelerator name with ⟨hname, hrun⟩ | ⟨hname, h, c, r, hr, hc, hrun⟩
  · unfold accelerator
    rw [run_bind, hrun]
    refine ⟨fun name' label h => ?_, fun _ => ⟨_, rfl⟩⟩
    cases h
    exact ⟨(.accelerator, name), by simp, hname, rfl, rfl⟩
  · have hcd := Component.resembles_configure ((w.inRegistry r).configuration.deviceConfig name c.isRemote) c
    rcases hconfigure : c.configure ((w.inRegistry r).configuration.deviceConfig name c.isRemote)
      with ⟨outcome, d⟩
    rw [hconfigure] at hcd
    obtain ⟨a, ha⟩ := Component.exists_accelerator? random (hcd.fits hc)
    rw [accelerator_run random hrun hconfigure, ha]
    refine ⟨fun name' label h => ?_, fun h => ?_⟩
    · cases outcome <;> cases h
    · obtain ⟨q, hq, hunlisted⟩ := h
      rw [List.mem_singleton.mp hq] at hunlisted
      exact absurd hname hunlisted

theorem finds_setOption (key value : String) : Finds (setOption key value : Work ω Bool) [] := by
  intro w hw
  rcases setOption_run key value w with ⟨hinit, -⟩ | ⟨-, handled, r, -, hrun⟩
  · rw [hw.initialized] at hinit
    cases hinit
  · rw [hrun]
    refine ⟨fun name label h => ?_, fun h => ?_⟩
    · cases h
    · obtain ⟨q, hq, -⟩ := h
      exact absurd hq List.not_mem_nil

/-- The names a task asks for, and what for. -/
def Task.asks : Task ω → List (Facility × String)
  | setOption .. => []
  | component facility name => [(facility, name)]
  | accelerator _ name => [(.accelerator, name)]
  | decorated _ names => names.map fun name => (.stage, name)
  | compile name _ | translate name _ => [(.compiler, name)]
  | transform name _ => [(.transformation, name)]
  | generate name _ => [(.generator, name)]

theorem Finds.discard {x : Work ω α} {asked : List (Facility × String)} (hx : Finds x asked) :
    Finds (do let _ ← x) asked := by
  intro w hw
  obtain ⟨hreports, hfails⟩ := hx w hw
  rw [run_discard]
  rcases hrun : x.run w with ⟨e | a, w'⟩ <;> rw [hrun] at hreports hfails
  · exact ⟨fun name label h => by cases h; exact hreports name label rfl, fun _ => ⟨e, rfl⟩⟩
  · refine ⟨fun name label h => ?_, fun h => ?_⟩
    · cases h
    · obtain ⟨e, he⟩ := hfails h
      cases he

theorem finds_task (t : Task ω) : Finds t.work t.asks := by
  cases t with
  | setOption key value => exact (finds_setOption key value).discard
  | component facility name => exact finds_component fun h c _ => finds_pure ()
  | accelerator random name => exact (finds_accelerator random name).discard
  | decorated base names =>
    have h := (finds_mapM_stage (ω := ω) names).bind (.mapM keeping_stage names)
      fun stages => finds_pure (base.withStages stages)
    rw [List.append_nil] at h
    exact h.discard
  | compile name source =>
    refine Finds.discard ((finds_compiler name).bind (keeping_compiler name) fun _ => ?_)
    cases h : Wire.compile source with
    | error e => exact finds_throw nofun
    | ok p => exact finds_pure p
  | translate name k =>
    refine Finds.discard ((finds_compiler name).bind (keeping_compiler name) fun c => ?_)
    cases c.translate k.name k with
    | error e => exact finds_throw nofun
    | ok text => exact finds_pure text
  | transform name p => exact (finds_transform name p).discard
  | generate name parameters => exact (finds_generate name parameters).discard

theorem started_of_start {c : Configuration} {root : String} {more : List (Plugin Facility (Component ω))}
    {w : Workbench ω} (h : start c root more = .ok w) : w.Started c root (Plugin.builtIn ++ more) := by
  rcases start_cases c root more with ⟨fault, -, h'⟩ | ⟨-, e, held, -, h'⟩ | ⟨-, w', h', hw⟩
  · cases h.symm.trans h'
  · cases h.symm.trans h'
  · cases h.symm.trans h'
    exact hw

/-- After any tasks, a task finds what was listed when the bench was started, and nothing else. -/
theorem tasks_find_listed {c : Configuration} {root : String} {more : List (Plugin Facility (Component ω))}
    (hmore : ∀ p ∈ more, p.Proper) {w : Workbench ω} (h : start c root more = .ok w)
    (tasks : List (Task ω)) (t : Task ω) :
    Reports w.context.registry t.asks (t.work.run (w.run tasks)).1 := by
  have hproper : ∀ p ∈ Plugin.builtIn ++ more, p.Proper := fun p hp =>
    (List.mem_append.mp hp).elim (Plugin.proper_builtIn p) (hmore p)
  have hsound := (started_of_start h).sound hproper
  have hfinds := finds_task t _ (hsound.run tasks)
  unfold Reports at hfinds ⊢
  simp only [(keeps_run w tasks).1.registry.ids] at hfinds
  exact hfinds

/-- With the built-in plugins alone, a bench starts if its configuration is valid, and always lists
the same names. -/
theorem built_in_names_listed {c : Configuration} (hc : c.validate = .ok ()) (root : String) :
    ∃ w : Workbench ω, start c root = .ok w ∧
      ∀ tasks f, (w.run tasks).context.registry.ids f = builtInNames f := by
  obtain ⟨w, hstart, hw⟩ := start_builtIn (ω := ω) hc root
  refine ⟨w, hstart, fun tasks f => ?_⟩
  rw [(keeps_run w tasks).1.registry.ids, hw.continues.ids, ids_builtInRegistry]

theorem providersOf_stage : (builtInRegistry : Registry Facility (Component ω)).providersOf .stage =
    StageSettings.builtIn.zipIdx.map fun e => ⟨.stage, some e.1.name, ⟨7 + e.2⟩, some (.stage e.1)⟩ := by
  cbv

theorem template_stage {s : StageSettings} (hs : s ∈ StageSettings.builtIn) :
    ((builtInRegistry : Registry Facility (Component ω)).find? .stage s.name).bind Provider.template =
      some (.stage s) := by
  rw [Registry.find?, providersOf_stage]
  simp only [StageSettings.builtIn, List.mem_cons, List.not_mem_nil, or_false] at hs
  rcases hs with rfl | rfl | rfl <;>
    simp [StageSettings.builtIn, StageSettings.name, Sampling.name, Correction.name, Extrapolation.name]

/-- A stage is made anew, by the options that are set when it is looked up. -/
theorem stage_made_anew {c : Configuration} {root : String} {w : Workbench ω} (h : start c root = .ok w)
    (tasks : List (Task ω)) {s : StageSettings} (hs : s ∈ StageSettings.builtIn) :
    ((stage s.name).run (w.run tasks)).1 =
      ((s.apply (w.run tasks).context.options).mapError .device).map (·.1) := by
  have hw := started_of_start h
  rw [List.append_nil] at hw
  have hsound := (hw.sound Plugin.proper_builtIn).run tasks
  have hcontinues := hw.continues.trans (keeps_run w tasks).1.registry
  obtain ⟨p, hp, htemplate⟩ := Option.bind_eq_some_iff.mp (template_stage (ω := ω) hs)
  have hfind : (w.run tasks).context.registry.find? .stage s.name = some p := by
    rw [Registry.find?, hcontinues.providersOf]
    exact hp
  have hget := Registry.get?_of_find? hfind
  rw [htemplate, Option.elim_some] at hget
  obtain ⟨i, r, hallocate⟩ : ∃ i r, (w.run tasks).context.registry.allocate (.stage s) = (i, r) := ⟨_, _, rfl⟩
  have hobject := Registry.object?_allocate_self (w.run tasks).context.registry (.stage s)
  rw [hallocate] at hget hobject
  unfold stage
  rw [run_bind]
  rcases component_run .stage s.name (w.run tasks) with ⟨hinit, -⟩ | ⟨-, hname, -⟩ | ⟨i', r', -, hget', hrun⟩
  · rw [hsound.initialized] at hinit
    cases hinit
  · exact absurd ((Registry.exists_get?_iff _ _ _).mp ⟨_, hget⟩) hname
  · cases hget.symm.trans hget'
    rw [hrun, hobject]
    dsimp only [Option.elim_some]
    rw [run_bind, get_run]
    dsimp only
    have hoptions : ((w.run tasks).inRegistry r).context.options = (w.run tasks).context.options := rfl
    rw [hoptions]
    cases s.apply (w.run tasks).context.options <;> rfl

/-! ## Running kernels -/

/-- What runs kernels here is the simulator, by some settings, or something remote. -/
theorem Sound.accelerator_cases {w w' : Workbench ω} (hw : w.Sound) {random : RandomSource} {name : String}
    {a : Accelerator (Remote.Network ω)} (h : (accelerator random name).run w = (.ok a, w')) :
    (∃ s : LocalSettings, a = s.accelerator _ random) ∨ a.isRemote = true := by
  rcases hw.component_run .accelerator name with ⟨-, hrun⟩ | ⟨-, i, c, r, -, hc, hrun⟩
  · unfold accelerator at h
    rw [run_bind, hrun] at h
    cases h
  · have hcd := Component.resembles_configure ((w.inRegistry r).configuration.deviceConfig name c.isRemote) c
    rcases hconfigure : c.configure ((w.inRegistry r).configuration.deviceConfig name c.isRemote)
      with ⟨outcome, d⟩
    rw [hconfigure] at hcd
    rw [accelerator_run random hrun hconfigure] at h
    have hd := hcd.fits hc
    cases outcome with
    | error e => cases h
    | ok _ =>
      cases d with
      | simulator s =>
        cases h
        exact .inl ⟨s, rfl⟩
      | service link d =>
        cases h
        exact .inr rfl
      | _ => rcases hd with hd | hd <;> cases hd

theorem decorated_eq_ok {base d : Accelerator (Remote.Network ω)} {names : List String} {w w' : Workbench ω}
    (h : (decorated base names).run w = (.ok d, w')) : ∃ stages, d = base.withStages stages := by
  unfold decorated at h
  rw [run_bind] at h
  rcases hrun : (names.mapM stage : Work ω _).run w with ⟨e | stages, w''⟩ <;> rw [hrun] at h <;> cases h
  exact ⟨stages, rfl⟩

/-- Whatever stages a bench puts around what it runs kernels on itself, batches stay in order. -/
theorem orderedBatch_of_decorated {w w₁ w₂ w₃ : Workbench ω} (hw : w.Sound) {random : RandomSource}
    {name : String} {a d : Accelerator (Remote.Network ω)} (ha : (accelerator random name).run w = (.ok a, w₁))
    (hlocal : a.isRemote = false) {names : List String} (hd : (decorated a names).run w₂ = (.ok d, w₃)) :
    OrderedBatch d.executeBatch := by
  obtain ⟨stages, rfl⟩ := decorated_eq_ok hd
  rcases hw.accelerator_cases ha with ⟨s, rfl⟩ | hremote
  · exact LocalSettings.orderedBatch_withStages stages
  · rw [hlocal] at hremote
    cases hremote

end Workbench

end QuantumKernels
