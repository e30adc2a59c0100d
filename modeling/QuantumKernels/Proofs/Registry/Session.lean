import QuantumKernels.Proofs.Registry.Objects
import QuantumKernels.Workbench.Component

/-!
# Registries in use

A run is a sequence of actions on a registry: registrations, lookups, changes through handles and
offers of options. Each action adds what it registers to the list of providers. An object that a
lookup has made is reached through its own handle alone.
-/
namespace QuantumKernels.Registry

variable {κ α : Type}

/-! ## Actions -/

/-- What is done with a registry from outside. Questions that leave the registry as it is are left
out; a handle that goes to no object does nothing. -/
inductive Action (κ α : Type) where
  | addShared (capability : κ) (name : String) (a : α)
  | addCloneable (capability : κ) (name : String) (template : α)
  | addAnonymous (capability : κ) (a : α)
  /-- registers an object that is there already -/
  | share (capability : κ) (name : Option String) (h : Handle)
  | get (capability : κ) (name : String)
  | require (capability : κ) (name : String)
  | change (h : Handle) (f : α → α)
  | offer (options : Options)

/-- The provider that an action registers. -/
def Action.registers? (r : Registry κ α) : Action κ α → Option (Provider κ α)
  | addShared c name a => some ⟨c, some name, (r.allocate a).1, none⟩
  | addCloneable c name a => some ⟨c, some name, (r.allocate a).1, some a⟩
  | addAnonymous c a => some ⟨c, none, (r.allocate a).1, none⟩
  | share c name h => if (r.object? h).isSome then some ⟨c, name, h, none⟩ else none
  | get .. | require .. | change .. | offer _ => none

/-- An action registers the object of a handle. -/
def Action.Reveals (h : Handle) : Action κ α → Prop
  | share _ _ h' => h' = h
  | _ => False

/-- An action reaches for an object by its handle. -/
def Action.Uses (h : Handle) : Action κ α → Prop
  | share _ _ h' | change h' _ => h' = h
  | _ => False

theorem Action.uses_of_reveals {h : Handle} {x : Action κ α} (hx : x.Reveals h) : x.Uses h := by
  cases x with
  | share => exact hx
  | _ => exact hx.elim

section

variable [DecidableEq κ] [Capability κ] [Configurable α]

def act (r : Registry κ α) : Action κ α → Registry κ α
  | .addShared c name a => r.addShared c name a
  | .addCloneable c name a => r.addCloneable c name a
  | .addAnonymous c a => r.addAnonymous c a
  | .share c name h => if (r.object? h).isSome then r.register ⟨c, name, h, none⟩ else r
  | .get c name => (r.get? c name).elim r (·.2)
  | .require c name => (r.require c name).toOption.elim r (·.2)
  | .change h f => r.change h f
  | .offer options => (r.handleOptions options).1

def run (r : Registry κ α) (actions : List (Action κ α)) : Registry κ α := actions.foldl act r

/-- What is registered in a run, in order. -/
def registrations (r : Registry κ α) : List (Action κ α) → List (Provider κ α)
  | [] => []
  | x :: rest => (x.registers? r).toList ++ registrations (r.act x) rest

theorem act_require (r : Registry κ α) (c : κ) (name : String) :
    r.act (.require c name) = r.act (.get c name) := by
  simp only [act, require]
  cases r.get? c name <;> rfl

/-- What an action can do. -/
theorem act_cases (r : Registry κ α) (x : Action κ α) :
    (x.registers? r = none ∧
      (r.act x = r ∨ (∃ a, r.act x = (r.allocate a).2) ∨ (∃ h f, x = .change h f ∧ r.act x = r.change h f) ∨
        ∃ options, r.act x = (r.handleOptions options).1)) ∨
    ∃ p, x.registers? r = some p ∧
      ((∃ a, p.canonical = (r.allocate a).1 ∧ r.act x = (r.allocate a).2.register p) ∨
        x.Reveals p.canonical ∧ (r.object? p.canonical).isSome ∧ r.act x = r.register p) := by
  have hget (c : κ) (name : String) :
      r.act (.get c name) = r ∨ ∃ a, r.act (.get c name) = (r.allocate a).2 := by
    simp only [act]
    cases hfind : r.find? c name with
    | none =>
      rw [get?, hfind]
      exact .inl rfl
    | some p =>
      rw [get?_of_find? hfind]
      cases p.template with
      | none => exact .inl rfl
      | some a => exact .inr ⟨a, rfl⟩
  cases x with
  | addShared c name a => exact .inr ⟨_, rfl, .inl ⟨a, rfl, rfl⟩⟩
  | addCloneable c name a => exact .inr ⟨_, rfl, .inl ⟨a, rfl, rfl⟩⟩
  | addAnonymous c a => exact .inr ⟨_, rfl, .inl ⟨a, rfl, rfl⟩⟩
  | share c name h =>
    by_cases hobject : (r.object? h).isSome = true
    · exact .inr ⟨⟨c, name, h, none⟩, if_pos hobject, .inr ⟨rfl, hobject, if_pos hobject⟩⟩
    · exact .inl ⟨if_neg hobject, .inl (if_neg hobject)⟩
  | get c name => exact .inl ⟨rfl, (hget c name).imp_right .inl⟩
  | require c name => exact .inl ⟨rfl, act_require r c name ▸ (hget c name).imp_right .inl⟩
  | change h f => exact .inl ⟨rfl, .inr (.inr (.inl ⟨h, f, rfl, rfl⟩))⟩
  | offer options => exact .inl ⟨rfl, .inr (.inr (.inr ⟨options, rfl⟩))⟩

theorem sound_act {r : Registry κ α} {log : List (Provider κ α)} (hr : r.Sound log) (x : Action κ α) :
    (r.act x).Sound (log ++ (x.registers? r).toList) := by
  rcases act_cases r x with ⟨hnone, hact⟩ | ⟨p, hp, hact⟩
  · rw [hnone, Option.toList_none, List.append_nil]
    rcases hact with hact | ⟨a, hact⟩ | ⟨h, f, -, hact⟩ | ⟨options, hact⟩ <;> rw [hact]
    · exact hr
    · exact hr.allocate a
    · exact hr.retains (retains_change r h f)
    · exact hr.retains (retains_offerAll options _ r false)
  · rw [hp, Option.toList_some]
    rcases hact with ⟨a, hcanonical, hact⟩ | ⟨-, hobject, hact⟩ <;> rw [hact]
    · refine (hr.allocate a).register ?_
      rw [hcanonical, object?_allocate, if_pos rfl]
      rfl
    · exact hr.register hobject

theorem sound_run {r : Registry κ α} {log : List (Provider κ α)} (hr : r.Sound log)
    (actions : List (Action κ α)) : (r.run actions).Sound (log ++ r.registrations actions) := by
  induction actions generalizing r log with
  | nil => simpa [run, registrations] using hr
  | cons x rest ih =>
    have hrest := ih (sound_act hr x)
    rwa [List.append_assoc] at hrest

/-- An action that does not register an object leaves it private; one that does not reach for it at
all leaves it as it is. -/
theorem private_act {r : Registry κ α} {h : Handle} (hh : r.Private h) {x : Action κ α}
    (hx : ¬ x.Reveals h) :
    (r.act x).Private h ∧ (¬ x.Uses h → (r.act x).object? h = r.object? h) := by
  rcases act_cases r x with ⟨-, hact⟩ | ⟨p, -, hact⟩
  · rcases hact with hact | ⟨a, hact⟩ | ⟨h', f, rfl, hact⟩ | ⟨options, hact⟩ <;> rw [hact]
    · exact ⟨hh, fun _ => rfl⟩
    · exact ⟨hh.allocate a, fun _ => object?_allocate_of_isSome hh.object a⟩
    · refine ⟨hh.retains (retains_change r h' f), fun huses => ?_⟩
      rw [object?_change, if_neg (Ne.symm huses)]
    · -- offers go to listed objects only
      have hcount : (r.services Capability.options).count h = 0 :=
        List.count_eq_zero.mpr (hh.unlisted _)
      refine ⟨hh.retains (retains_offerAll options _ r false), fun _ => ?_⟩
      rw [handleOptions_eq, object?_offerAll, hcount, Function.iterate_zero, Option.map_id]
      rfl
  · rcases hact with ⟨a, hcanonical, hact⟩ | ⟨hreveals, -, hact⟩ <;> rw [hact]
    · refine ⟨(hh.allocate a).register ?_, fun _ => object?_allocate_of_isSome hh.object a⟩
      exact hcanonical ▸ (ne_allocate_of_isSome hh.object a).symm
    · refine ⟨hh.register ?_, fun _ => rfl⟩
      rintro rfl
      exact hx hreveals

theorem private_run {r : Registry κ α} {h : Handle} (hh : r.Private h) {actions : List (Action κ α)}
    (hactions : ∀ x ∈ actions, ¬ x.Reveals h) :
    (r.run actions).Private h ∧
      ((∀ x ∈ actions, ¬ x.Uses h) → (r.run actions).object? h = r.object? h) := by
  induction actions generalizing r with
  | nil => exact ⟨hh, fun _ => rfl⟩
  | cons x rest ih =>
    obtain ⟨hact, hobject⟩ := private_act hh (hactions x (by simp))
    obtain ⟨hrest, hobject'⟩ := ih hact fun y hy => hactions y (by simp [hy])
    refine ⟨hrest, fun huses => ?_⟩
    exact (hobject' fun y hy => huses y (by simp [hy])).trans (hobject (huses x (by simp)))

/-- The same action, or changes of the object of the handle. -/
inductive Aligned (h : Handle) : Action κ α → Action κ α → Prop
  | same {x : Action κ α} (hx : ¬ x.Uses h) : Aligned h x x
  | change (f g : α → α) : Aligned h (.change h f) (.change h g)

theorem Alike.get {h : Handle} {r s : Registry κ α} (hrs : Alike h r s) (c : κ) (name : String) :
    Alike h (r.act (.get c name)) (s.act (.get c name)) ∧
      (s.get? c name).map (·.1) = (r.get? c name).map (·.1) := by
  have hsfind := hrs.find? c name
  simp only [act]
  cases hfind : r.find? c name with
  | none =>
    rw [get?, get?, hsfind, hfind]
    exact ⟨hrs, rfl⟩
  | some p =>
    rw [get?_of_find? hfind, get?_of_find? (hsfind.trans hfind)]
    cases p.template with
    | none => exact ⟨hrs, rfl⟩
    | some a => exact ⟨hrs.allocate a, congrArg some (hrs.allocate_fst a)⟩

/-- What is done through the handle of a private object changes no other object. -/
theorem alike_act {h : Handle} {r s : Registry κ α} (hrs : Alike h r s) (hr : r.Private h)
    {x y : Action κ α} (hxy : Aligned h x y) : Alike h (r.act x) (s.act y) := by
  cases hxy with
  | change f g =>
    have hobjects : ∀ i ≠ h, (s.change h g).object? i = (r.change h f).object? i := by
      intro i hi
      rw [object?_change, object?_change, if_neg hi, if_neg hi, hrs.objects i hi]
    exact hrs.of_retains (retains_change r h f) (retains_change s h g) hobjects
  | same hx =>
    cases x with
    | addShared c name a => exact hrs.add a fun i => ⟨c, some name, i, none⟩
    | addCloneable c name a => exact hrs.add a fun i => ⟨c, some name, i, some a⟩
    | addAnonymous c a => exact hrs.add a fun i => ⟨c, none, i, none⟩
    | share c name i =>
      simp only [act, hrs.objects i hx]
      split_ifs
      · exact hrs.register _
      · exact hrs
    | get c name => exact (hrs.get c name).1
    | require c name =>
      rw [act_require, act_require]
      exact (hrs.get c name).1
    | change i f => exact hrs.change hx f
    | offer options => exact (hrs.handleOptions hr options).1

theorem alike_run {h : Handle} {r s : Registry κ α} (hrs : Alike h r s) (hr : r.Private h)
    {xs ys : List (Action κ α)} (hxy : List.Forall₂ (Aligned h) xs ys) :
    Alike h (r.run xs) (s.run ys) ∧ (r.run xs).Private h := by
  induction hxy generalizing r s with
  | nil => exact ⟨hrs, hr⟩
  | @cons x y xs ys hx _ ih =>
    have hreveals : ¬ x.Reveals h := by
      cases hx with
      | same hx => exact fun h => hx (Action.uses_of_reveals h)
      | change f g => exact id
    exact ih (alike_act hrs hr hx) (private_act hr hreveals).1

/-! ## What a run comes to -/

/-- Lookups of a name give one object that is listed, as long as the name is not registered anew. -/
def Shares (r : Registry κ α) (c : κ) (name : String) (h : Handle) : Prop :=
  ∀ later, (∀ p ∈ r.registrations later, ¬ (p.capability = c ∧ p.name = some name)) →
    (r.run later).get? c name = some (h, r.run later) ∧ h ∈ (r.run later).services c

/-- Two registries answer alike and hold the same objects, but for that of a handle. -/
structure AgreesBut (h : Handle) (r s : Registry κ α) : Prop where
  objects : ∀ i ≠ h, s.object? i = r.object? i
  services : ∀ c, s.services c = r.services c
  ids : ∀ c, s.ids c = r.ids c
  lookups : ∀ c name, (s.get? c name).map (·.1) = (r.get? c name).map (·.1)
  size : s.size = r.size
  handled : ∀ options, (s.handleOptions options).2 = (r.handleOptions options).2

/-- An object is reached through its handle alone. -/
structure Isolated (r : Registry κ α) (h : Handle) : Prop where
  /-- what is done without the handle does not change it -/
  kept : ∀ later, (∀ x ∈ later, ¬ x.Uses h) → (r.run later).object? h = r.object? h
  /-- nobody is given the handle unless the object is registered -/
  hidden : ∀ later, (∀ x ∈ later, ¬ x.Reveals h) → ∀ c, h ∉ (r.run later).services c ∧
    ∀ name i s, (r.run later).get? c name = some (i, s) → i ≠ h
  /-- what is done to it through the handle is seen nowhere else -/
  unseen : ∀ xs ys, List.Forall₂ (Aligned h) xs ys → AgreesBut h (r.run xs) (r.run ys)

theorem Alike.agreesBut {h : Handle} {r s : Registry κ α} (hrs : Alike h r s) (hr : r.Private h) :
    AgreesBut h r s where
  objects := hrs.objects
  services := hrs.services
  ids c := by
    rw [Registry.ids, hrs.providersOf]
    rfl
  lookups c name := (hrs.get c name).2
  size := by
    rw [size, hrs.counts]
    rfl
  handled options := (hrs.handleOptions hr options).2

/-- A provider without a template is shared. -/
theorem Sound.shares {r : Registry κ α} {log : List (Provider κ α)} (hr : r.Sound log) {c : κ}
    {name : String} {p : Provider κ α} (hp : r.find? c name = some p) (htemplate : p.template = none) :
    r.Shares c name p.canonical := by
  intro later hlater
  obtain ⟨before, after, rfl, hc, hname, hafter⟩ := hr.lists.find?_eq_some_iff.mp hp
  have hrun := sound_run hr later
  rw [List.append_assoc, List.cons_append] at hrun
  have hfind : (r.run later).find? c name = some p := by
    refine hrun.lists.find?_eq_some_iff.mpr ⟨before, _, rfl, hc, hname, fun q hq => ?_⟩
    rcases List.mem_append.mp hq with hq | hq
    · exact hafter q hq
    · exact hlater q hq
  rw [get?_of_find? hfind, htemplate]
  exact ⟨rfl, canonical_mem_services_of_find? hfind⟩

theorem Private.isolated {r : Registry κ α} {h : Handle} (hh : r.Private h) : r.Isolated h where
  kept later hlater :=
    (private_run hh fun x hx hreveals => hlater x hx (Action.uses_of_reveals hreveals)).2 hlater
  hidden later hlater c := by
    have hrun := (private_run hh hlater).1
    refine ⟨hrun.unlisted c, fun name i s hget => ?_⟩
    cases hfind : (r.run later).find? c name with
    | none =>
      rw [get?, hfind] at hget
      cases hget
    | some p =>
      rw [get?_of_find? hfind] at hget
      cases htemplate : p.template with
      | none =>
        rw [htemplate] at hget
        cases hget
        rintro rfl
        exact hrun.unlisted c (canonical_mem_services_of_find? hfind)
      | some a =>
        rw [htemplate] at hget
        cases hget
        exact (ne_allocate_of_isSome hrun.object a).symm
  unseen xs ys hxy := by
    obtain ⟨hrun, hprivate⟩ := alike_run ⟨.refl r, fun _ _ => rfl⟩ hh hxy
    exact hrun.agreesBut hprivate

/-- After every run a registry is the list of what was registered in it. A name stands for the last
provider of its capability; without a template its object is shared, with one each lookup makes an
object of its own. Options are offered to all that take them. -/
theorem registry_follows_registrations (actions : List (Action κ α)) :
    let r : Registry κ α := run {} actions
    r.Follows (registrations {} actions) ∧
    (∀ h f i, (r.change h f).object? i = if i = h then (r.object? h).map f else r.object? i) ∧
    (∀ options h, (r.handleOptions options).1.object? h =
      (r.object? h).map (taken options)^[(r.services Capability.options).count h]) ∧
    (∀ options, (r.handleOptions options).2 = true ↔ ∃ h a n, r.object? h = some a ∧
      n < (r.services Capability.options).count h ∧
      (Configurable.handle ((taken options)^[n] a) options).2 = true) ∧
    ∀ c name p, r.find? c name = some p →
      (p.template = none → r.Shares c name p.canonical) ∧
      ∀ a, p.template = some a → ∃ h s, r.get? c name = some (h, s) ∧ s.object? h = some a ∧
        (∀ i, (r.object? i).isSome → i ≠ h ∧ s.object? i = r.object? i) ∧ s.Isolated h := by
  intro r
  have hr : r.Sound (registrations {} actions) := sound_run sound_empty actions
  refine ⟨hr.follows, fun h f i => object?_change r h i f, fun options h => ?_, fun options => ?_, fun c name p hp => ?_⟩
  · rw [handleOptions_eq, object?_offerAll]
  · rw [handleOptions_eq, offerAll_snd]
    simp only [Bool.false_eq_true, false_or]
  refine ⟨hr.shares hp, fun a ha => ⟨(r.allocate a).1, (r.allocate a).2, ?_, ?_, ?_, ?_⟩⟩
  · rw [get?_of_find? hp, ha]
    rfl
  · rw [object?_allocate, if_pos rfl]
  · exact fun i hi => ⟨ne_allocate_of_isSome hi a, object?_allocate_of_isSome hi a⟩
  · exact (hr.private_allocate a).isolated

end

theorem registry_follows_registrations_shadowed :
    let actions : List (Action Facility (Component Unit)) :=
      [.addShared .embedding "shift" .embedding, .addCloneable .family "gate" (.family .gate),
        .addShared .embedding "shift" (.generator ⟨true⟩)]
    let r := run {} actions
    r.size = 3 ∧ r.Shares .embedding "shift" ⟨2⟩ ∧ ∃ h s, r.get? .family "gate" = some (h, s) ∧
      s.object? h = some (.family .gate) ∧ s.Isolated h := by
  intro actions r
  obtain ⟨hfollows, -, -, -, hfound⟩ := registry_follows_registrations actions
  have hshift : r.find? .embedding "shift" = some ⟨.embedding, some "shift", ⟨2⟩, none⟩ := rfl
  have hgate : r.find? .family "gate" = some ⟨.family, some "gate", ⟨1⟩, some (.family .gate)⟩ := rfl
  obtain ⟨h, s, hget, hobject, -, hisolated⟩ := (hfound _ _ _ hgate).2 _ rfl
  exact ⟨hfollows.size, (hfound _ _ _ hshift).1 rfl, h, s, hget, hobject, hisolated⟩

end QuantumKernels.Registry
