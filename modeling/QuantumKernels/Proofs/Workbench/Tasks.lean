import QuantumKernels.Workbench.Basic
import QuantumKernels.Proofs.Outcome
import QuantumKernels.Proofs.Registry.Initialization
import QuantumKernels.Proofs.Registry.Objects
import QuantumKernels.Proofs.Settings

/-!
# Tasks for a bench

Tasks set options, look components up and use them. Whether a task is done or fails, it leaves alone
which plugins are active and what they have registered; of a component it may change the settings, but
not what it is. So a bench has the inventory of its start.
-/
namespace QuantumKernels

variable {ω : Type}

/-! ## Components -/

namespace Component

/-- What a component is looked up for. -/
def facility : Component ω → Facility
  | compiler _ => .compiler
  | family _ => .family
  | optimizer _ => .transformation
  | generator _ => .generator
  | embedding => .embedding
  | stage _ => .stage
  | simulator _ | service .. => .accelerator

/-- The same component, perhaps with other settings. -/
structure Resembles (c d : Component ω) : Prop where
  facility : d.facility = c.facility
  name : d.name = c.name
  isRemote : d.isRemote = c.isRemote

theorem Resembles.refl (c : Component ω) : c.Resembles c := ⟨rfl, rfl, rfl⟩

theorem Resembles.trans {c d e : Component ω} (h : c.Resembles d) (h' : d.Resembles e) : c.Resembles e :=
  ⟨h'.facility.trans h.facility, h'.name.trans h.name, h'.isRemote.trans h.isRemote⟩

theorem name_handle (s : StageSettings) (options : Options) : (s.handle options).1.name = s.name := by
  unfold StageSettings.handle
  split
  · rename_i result hresult
    rw [(StageSettings.apply_eq_ok.mp hresult).2]
    cases s <;> rfl
  · rfl

theorem resembles_taken (options : Options) (c : Component ω) : c.Resembles (Registry.taken options c) := by
  cases c with
  | stage s => exact ⟨rfl, name_handle s options, rfl⟩
  | _ => exact ⟨rfl, rfl, rfl⟩

theorem resembles_iterate (options : Options) (n : ℕ) (c : Component ω) :
    c.Resembles ((Registry.taken options)^[n] c) := by
  induction n generalizing c with
  | zero => exact .refl c
  | succ n ih => exact (resembles_taken options c).trans (ih _)

theorem resembles_configure (config : DeviceConfig) (c : Component ω) :
    c.Resembles (c.configure config).2 := by
  cases c with
  | simulator s =>
    rw [configure]
    cases s.configure config <;> exact ⟨rfl, rfl, rfl⟩
  | _ => exact ⟨rfl, rfl, rfl⟩

end Component

/-! ## Registries -/

namespace Registry

/-- The same providers; every object is still there, perhaps with other settings. -/
structure Continues (r s : Registry Facility (Component ω)) : Prop where
  shelves : s.shelves = r.shelves
  counts : s.counts = r.counts
  objects : ∀ h c, r.object? h = some c → ∃ d, s.object? h = some d ∧ c.Resembles d

variable {r s t : Registry Facility (Component ω)}

theorem Continues.refl (r : Registry Facility (Component ω)) : r.Continues r :=
  ⟨rfl, rfl, fun _ c hc => ⟨c, hc, .refl c⟩⟩

theorem Continues.trans (h : r.Continues s) (h' : s.Continues t) : r.Continues t := by
  refine ⟨h'.shelves.trans h.shelves, h'.counts.trans h.counts, fun i c hc => ?_⟩
  obtain ⟨d, hd, hcd⟩ := h.objects i c hc
  obtain ⟨e, he, hde⟩ := h'.objects i d hd
  exact ⟨e, he, hcd.trans hde⟩

theorem continues_allocate (r : Registry Facility (Component ω)) (a : Component ω) :
    r.Continues (r.allocate a).2 := by
  refine ⟨rfl, rfl, fun h c hc => ⟨c, ?_, .refl c⟩⟩
  rw [object?_allocate_of_isSome (by simp [hc]), hc]

theorem continues_update {h : Handle} {c d : Component ω} (hc : r.object? h = some c)
    (hcd : c.Resembles d) : r.Continues (r.update h d) := by
  refine ⟨rfl, rfl, fun i b hb => ?_⟩
  rw [object?_update]
  split_ifs with hi
  · rw [hi, hc] at hb
    cases hb
    exact ⟨d, by rw [hc, Option.map_some], hcd⟩
  · exact ⟨b, hb, .refl b⟩

theorem continues_handleOptions (r : Registry Facility (Component ω)) (options : Options) :
    r.Continues (r.handleOptions options).1 := by
  rw [handleOptions_eq]
  have hretains := retains_offerAll options (r.services Capability.options) r false
  refine ⟨hretains.shelves, hretains.counts, fun h c hc => ?_⟩
  rw [object?_offerAll, hc]
  exact ⟨_, rfl, Component.resembles_iterate options _ c⟩

theorem continues_get? {f : Facility} {name : String} {found : Handle × Registry Facility (Component ω)}
    (h : r.get? f name = some found) : r.Continues found.2 := by
  obtain ⟨p, hp, rfl⟩ := Option.map_eq_some_iff.mp h
  unfold resolve
  cases p.template with
  | none => exact .refl r
  | some a => exact continues_allocate r a

theorem Continues.providersOf (h : r.Continues s) (f : Facility) : s.providersOf f = r.providersOf f := by
  rw [Registry.providersOf, h.shelves]
  rfl

theorem Continues.ids (h : r.Continues s) (f : Facility) : s.ids f = r.ids f := by
  rw [Registry.ids, h.providersOf]
  rfl

end Registry

namespace Context

variable {c : Context Facility (Component ω)} {f : Facility} {name : String}

theorem service_of_get? (hinit : c.initialized = true) {h : Handle} {r : Registry Facility (Component ω)}
    (hget : c.registry.get? f name = some (h, r)) :
    c.service f name = .ok (h, { c with registry := r }) := by
  rw [service, registry?_of_initialized hinit]
  simp only [bind, Except.bind, Registry.require_of_get? hget]
  rfl

theorem service_of_not_mem_ids (hinit : c.initialized = true) (hname : name ∉ c.registry.ids f) :
    c.service f name = .error (.notFound name (Capability.label f)) := by
  rw [service, registry?_of_initialized hinit]
  simp only [bind, Except.bind, Registry.require_of_not_mem_ids hname]

end Context

/-! ## Work -/

namespace Workbench

/-- The bench with another registry. -/
def inRegistry (w : Workbench ω) (r : Registry Facility (Component ω)) : Workbench ω :=
  { w with context := { w.context with registry := r } }

/-- A bench comes from another by work. Its options may be others. -/
structure Keeps (w w' : Workbench ω) : Prop where
  configuration : w'.configuration = w.configuration
  context : w'.context =
    { w.context with registry := w'.context.registry, options := w'.context.options }
  registry : w.context.registry.Continues w'.context.registry

theorem Keeps.refl (w : Workbench ω) : w.Keeps w := ⟨rfl, rfl, .refl _⟩

theorem Keeps.trans {w w' w'' : Workbench ω} (h : w.Keeps w') (h' : w'.Keeps w'') : w.Keeps w'' := by
  refine ⟨h'.configuration.trans h.configuration, ?_, h.registry.trans h'.registry⟩
  rw [h'.context, h.context]

theorem keeps_inRegistry {w : Workbench ω} {r : Registry Facility (Component ω)}
    (h : w.context.registry.Continues r) : w.Keeps (w.inRegistry r) := ⟨rfl, rfl, h⟩

theorem Keeps.inventory {w w' : Workbench ω} (h : w.Keeps w') : w'.inventory = w.inventory := by
  unfold Workbench.inventory
  simp only [h.registry.ids]

variable {α β : Type}

/-- Work that keeps a bench, and its options as well. -/
def Keeping (x : Work ω α) : Prop :=
  ∀ w, w.Keeps (x.run w).2 ∧ (x.run w).2.context.options = w.context.options

theorem keeping_pure (a : α) : Keeping (pure a : Work ω α) := fun w => ⟨.refl w, rfl⟩

theorem keeping_throw (e : WorkbenchError) : Keeping (throw e : Work ω α) := fun w => ⟨.refl w, rfl⟩

theorem keeping_get : Keeping (get : Work ω (Workbench ω)) := fun w => ⟨.refl w, rfl⟩

theorem Keeping.bind {x : Work ω α} {f : α → Work ω β} (hx : Keeping x) (hf : ∀ a, Keeping (f a)) :
    Keeping (x >>= f) := by
  intro w
  obtain ⟨hkeeps, hoptions⟩ := hx w
  rw [run_bind]
  rcases hrun : x.run w with ⟨e | a, w'⟩ <;> rw [hrun] at hkeeps hoptions
  · exact ⟨hkeeps, hoptions⟩
  · obtain ⟨hkeeps', hoptions'⟩ := hf a w'
    exact ⟨hkeeps.trans hkeeps', hoptions'.trans hoptions⟩

theorem Keeping.mapM {f : α → Work ω β} (hf : ∀ a, Keeping (f a)) (l : List α) : Keeping (l.mapM f) := by
  induction l with
  | nil => exact keeping_pure []
  | cons a rest ih =>
    rw [List.mapM_cons]
    exact (hf a).bind fun b => ih.bind fun bs => keeping_pure (b :: bs)

theorem get_run (w : Workbench ω) : (get : Work ω (Workbench ω)).run w = (.ok w, w) := rfl

theorem modify_run (f : Workbench ω → Workbench ω) (w : Workbench ω) :
    (modify f : Work ω Unit).run w = (.ok (), f w) := rfl

/-- A bench that was never initialized knows no component, and any other those in its inventory. -/
theorem component_run (f : Facility) (name : String) (w : Workbench ω) :
    (w.context.initialized = false ∧ (component f name).run w = (.error (.registry .notInitialized), w)) ∨
    (w.context.initialized = true ∧ name ∉ w.context.registry.ids f ∧
      (component f name).run w = (.error (missing f name), w)) ∨
    ∃ h r, w.context.initialized = true ∧ w.context.registry.get? f name = some (h, r) ∧
      (component f name).run w =
        ((r.object? h).elim (.error (missing f name)) fun c => .ok (h, c), w.inRegistry r) := by
  unfold component
  rw [run_bind, get_run]
  dsimp only
  cases hinit : w.context.initialized with
  | false =>
    rw [Context.service_of_not_initialized hinit]
    exact .inl ⟨rfl, rfl⟩
  | true =>
    by_cases hname : name ∈ w.context.registry.ids f
    · obtain ⟨⟨h, r⟩, hget⟩ := (Registry.exists_get?_iff _ f name).mpr hname
      refine .inr (.inr ⟨h, r, rfl, hget, ?_⟩)
      rw [Context.service_of_get? hinit hget]
      dsimp only
      rw [run_bind, modify_run]
      dsimp only
      cases r.object? h <;> rfl
    · rw [Context.service_of_not_mem_ids hinit hname]
      exact .inr (.inl ⟨rfl, hname, rfl⟩)

theorem keeping_component (f : Facility) (name : String) :
    Keeping (component f name : Work ω (Handle × Component ω)) := by
  intro w
  rcases component_run f name w with ⟨-, hrun⟩ | ⟨-, -, hrun⟩ | ⟨h, r, -, hget, hrun⟩ <;> rw [hrun]
  · exact ⟨.refl w, rfl⟩
  · exact ⟨.refl w, rfl⟩
  · exact ⟨keeps_inRegistry (Registry.continues_get? hget), rfl⟩

/-- What is looked up is there. -/
theorem object?_of_component {f : Facility} {name : String} {w w' : Workbench ω} {h : Handle}
    {c : Component ω} (hrun : (component f name).run w = (.ok (h, c), w')) :
    w'.context.registry.object? h = some c := by
  rcases component_run f name w with ⟨-, hrun'⟩ | ⟨-, -, hrun'⟩ | ⟨i, r, -, -, hrun'⟩
  · cases hrun'.symm.trans hrun
  · cases hrun'.symm.trans hrun
  · rw [hrun'] at hrun
    cases hobject : r.object? i <;> rw [hobject] at hrun <;> cases hrun
    exact hobject

/-- The component that was found is configured, and runs kernels as its new settings say. -/
theorem accelerator_run (random : RandomSource) {name : String} {w w' : Workbench ω} {h : Handle}
    {c d : Component ω} {outcome : Except DeviceError Unit}
    (hrun : (component .accelerator name).run w = (.ok (h, c), w'))
    (hconfigure : c.configure (w'.configuration.deviceConfig name c.isRemote) = (outcome, d)) :
    (accelerator random name).run w =
      ((outcome.mapError .device).bind fun _ =>
        (d.accelerator? random).elim (.error (missing .accelerator name)) .ok,
      w'.inRegistry (w'.context.registry.update h d)) := by
  unfold accelerator
  rw [run_bind, hrun]
  dsimp only
  rw [run_bind, get_run]
  dsimp only
  rw [hconfigure, run_bind]
  cases outcome with
  | error e => rfl
  | ok _ => cases d.accelerator? random <;> rfl

theorem keeping_accelerator (random : RandomSource) (name : String) :
    Keeping (accelerator random name : Work ω (Accelerator (Remote.Network ω))) := by
  intro w
  obtain ⟨hkeeps, hoptions⟩ := keeping_component .accelerator name w
  rcases hrun : (component .accelerator name).run w with ⟨e | ⟨h, c⟩, w'⟩ <;> rw [hrun] at hkeeps hoptions
  · unfold accelerator
    rw [run_bind, hrun]
    exact ⟨hkeeps, hoptions⟩
  · have hcd := Component.resembles_configure (w'.configuration.deviceConfig name c.isRemote) c
    rcases hconfigure : c.configure (w'.configuration.deviceConfig name c.isRemote) with ⟨outcome, d⟩
    rw [hconfigure] at hcd
    have hupdate := Registry.continues_update (object?_of_component hrun) hcd
    rw [accelerator_run random hrun hconfigure]
    exact ⟨hkeeps.trans (keeps_inRegistry hupdate), hoptions⟩

theorem keeping_stage (name : String) : Keeping (stage name : Work ω StageSettings) := by
  refine (keeping_component .stage name).bind fun found => ?_
  rcases found with ⟨h, c⟩
  cases c with
  | stage s =>
    refine keeping_get.bind fun w => ?_
    cases s.apply w.context.options with
    | error e => exact keeping_throw _
    | ok result => exact keeping_pure _
  | _ => exact keeping_throw _

theorem keeping_decorated (base : Accelerator (Remote.Network ω)) (names : List String) :
    Keeping (decorated base names) :=
  (Keeping.mapM keeping_stage names).bind fun _ => keeping_pure _

theorem keeping_compiler (name : String) : Keeping (compiler name : Work ω Wire.Compiler) := by
  refine (keeping_component .compiler name).bind fun found => ?_
  rcases found with ⟨h, c⟩
  cases c with
  | compiler c => exact keeping_pure c
  | _ => exact keeping_throw _

theorem keeping_compile (name source : String) : Keeping (compile name source : Work ω Program) := by
  refine (keeping_compiler name).bind fun _ => ?_
  cases Wire.compile source with
  | error e => exact keeping_throw _
  | ok p => exact keeping_pure p

theorem keeping_translate (name : String) (k : Kernel) : Keeping (translate name k : Work ω String) := by
  refine (keeping_compiler name).bind fun c => ?_
  cases c.translate k.name k with
  | error e => exact keeping_throw _
  | ok text => exact keeping_pure text

theorem keeping_transform (name : String) (p : Program) :
    Keeping (transform name p : Work ω Program) := by
  refine (keeping_component .transformation name).bind fun found => ?_
  rcases found with ⟨h, c⟩
  cases c with
  | optimizer o => exact keeping_pure _
  | _ => exact keeping_throw _

theorem keeping_generate (name : String) (parameters : List Parameter) :
    Keeping (generate name parameters : Work ω Kernel) := by
  refine (keeping_component .generator name).bind fun found => ?_
  rcases found with ⟨h, c⟩
  cases c with
  | generator g =>
    dsimp only
    cases g.generateFrom parameters with
    | error e => exact keeping_throw _
    | ok k => exact keeping_pure k
  | _ => exact keeping_throw _

theorem Context.handleOptions_of_initialized {c : Context Facility (Component ω)}
    (hinit : c.initialized = true) : c.handleOptions =
      .ok ((c.registry.handleOptions c.options).2, { c with registry := (c.registry.handleOptions c.options).1 }) := by
  rw [Context.handleOptions, Context.registry?_of_initialized hinit]
  rfl

/-- An option is set, and stays even if it cannot be offered. -/
theorem setOption_run (key value : String) (w : Workbench ω) :
    (w.context.initialized = false ∧ (setOption key value).run w =
      (.error (.registry .notInitialized), { w with context := w.context.setOption key value })) ∨
    (w.context.initialized = true ∧ ∃ handled r, w.context.registry.Continues r ∧
      (setOption key value).run w =
        (.ok handled, ({ w with context := w.context.setOption key value } : Workbench ω).inRegistry r)) := by
  unfold setOption
  rw [run_bind, modify_run]
  dsimp only
  rw [run_bind, get_run]
  dsimp only
  cases hinit : (w.context.setOption key value).initialized with
  | false =>
    rw [Context.handleOptions_of_not_initialized hinit]
    exact .inl ⟨hinit, rfl⟩
  | true =>
    rw [Context.handleOptions_of_initialized hinit]
    exact .inr ⟨hinit, _, _, Registry.continues_handleOptions _ _, rfl⟩

theorem setOption_keeps (key value : String) (w : Workbench ω) :
    w.Keeps ((setOption key value).run w).2 ∧
      ((setOption key value).run w).2.context.options = w.context.options.insert key value := by
  rcases setOption_run key value w with ⟨-, hrun⟩ | ⟨-, handled, r, hr, hrun⟩ <;> rw [hrun]
  · exact ⟨⟨rfl, rfl, .refl _⟩, rfl⟩
  · exact ⟨⟨rfl, rfl, hr⟩, rfl⟩

/-! ## Tasks -/

/-- What can be asked of a bench. -/
inductive Task (ω : Type) where
  | setOption (key value : String)
  | component (facility : Facility) (name : String)
  | accelerator (random : RandomSource) (name : String)
  | decorated (base : Accelerator (Remote.Network ω)) (names : List String)
  | compile (name source : String)
  | translate (name : String) (k : Kernel)
  | transform (name : String) (p : Program)
  | generate (name : String) (parameters : List Parameter)

namespace Task

/-- The work of a task, without what it results in. -/
def work : Task ω → Work ω Unit
  | setOption key value => do let _ ← Workbench.setOption key value
  | component facility name => do let _ ← Workbench.component facility name
  | accelerator random name => do let _ ← Workbench.accelerator random name
  | decorated base names => do let _ ← Workbench.decorated base names
  | compile name source => do let _ ← Workbench.compile name source
  | translate name k => do let _ ← Workbench.translate name k
  | transform name p => do let _ ← Workbench.transform name p
  | generate name parameters => do let _ ← Workbench.generate name parameters

/-- What a task makes of the options. -/
def options : Task ω → Options → Options
  | setOption key value, options => options.insert key value
  | _, options => options

end Task

/-- The bench after a task, whether the task is done or fails. -/
def act (w : Workbench ω) (t : Task ω) : Workbench ω := (t.work.run w).2

def run (w : Workbench ω) (tasks : List (Task ω)) : Workbench ω := tasks.foldl act w

theorem Keeping.discard {x : Work ω α} (hx : Keeping x) : Keeping (do let _ ← x) :=
  hx.bind fun _ => keeping_pure ()

theorem run_discard (x : Work ω α) (w : Workbench ω) :
    ExceptT.run (do let _ ← x) w = ((x.run w).1.map fun _ => (), (x.run w).2) := by
  rw [run_bind]
  rcases x.run w with ⟨e | a, w'⟩ <;> rfl

theorem keeps_act (w : Workbench ω) (t : Task ω) :
    w.Keeps (w.act t) ∧ (w.act t).context.options = t.options w.context.options := by
  cases t with
  | setOption key value =>
    rw [act, Task.work, run_discard]
    exact setOption_keeps key value w
  | component facility name => exact (keeping_component facility name).discard w
  | accelerator random name => exact (keeping_accelerator random name).discard w
  | decorated base names => exact (keeping_decorated base names).discard w
  | compile name source => exact (keeping_compile name source).discard w
  | translate name k => exact (keeping_translate name k).discard w
  | transform name p => exact (keeping_transform name p).discard w
  | generate name parameters => exact (keeping_generate name parameters).discard w

/-- Whatever is asked of a bench, its configuration, its plugins and its inventory stay, its components
stay what they are, and its options are those that were set last. -/
theorem keeps_run (w : Workbench ω) (tasks : List (Task ω)) :
    w.Keeps (w.run tasks) ∧
      (w.run tasks).context.options = tasks.foldl (fun options t => t.options options) w.context.options := by
  induction tasks generalizing w with
  | nil => exact ⟨.refl w, rfl⟩
  | cons t rest ih =>
    obtain ⟨hact, hoptions⟩ := keeps_act w t
    obtain ⟨hrest, hoptions'⟩ := ih (w.act t)
    refine ⟨hact.trans hrest, ?_⟩
    rw [List.foldl_cons, ← hoptions]
    exact hoptions'

theorem inventory_run (w : Workbench ω) (tasks : List (Task ω)) : (w.run tasks).inventory = w.inventory :=
  (keeps_run w tasks).1.inventory

end Workbench

end QuantumKernels
