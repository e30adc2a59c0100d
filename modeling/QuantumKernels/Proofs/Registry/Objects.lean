import QuantumKernels.Proofs.Registry.Listing
import Mathlib.Logic.Function.Iterate

/-!
# Objects of a registry

New objects are none of the old ones, and a change of one object leaves the others as they are.
Offers of options go to the objects that providers refer to, so those of an object that no
provider refers to are of no consequence for others, nor are theirs for it.
-/
namespace QuantumKernels.Registry

variable {κ α : Type}

theorem object?_allocate (r : Registry κ α) (a : α) (h : Handle) :
    (r.allocate a).2.object? h = if h = (r.allocate a).1 then some a else r.object? h := by
  obtain ⟨i⟩ := h
  rcases Nat.lt_trichotomy i r.objects.length with hlt | rfl | hgt
  · simp [allocate, object?, List.getElem?_append_left hlt, Nat.ne_of_lt hlt]
  · simp [allocate, object?]
  · have hnone : (r.objects ++ [a])[i]? = none := List.getElem?_eq_none (by simp; omega)
    simp [allocate, object?, hnone, Nat.ne_of_gt hgt, Nat.le_of_lt hgt]

theorem isSome_object? (r : Registry κ α) (h : Handle) :
    (r.object? h).isSome = true ↔ h.index < r.objects.length := by
  simp [object?]

/-- A new object is none of the old ones. -/
theorem ne_allocate_of_isSome {r : Registry κ α} {h : Handle} (hh : (r.object? h).isSome) (a : α) :
    h ≠ (r.allocate a).1 := by
  rintro rfl
  exact absurd ((isSome_object? r _).mp hh) (Nat.lt_irrefl _)

theorem object?_allocate_of_isSome {r : Registry κ α} {h : Handle} (hh : (r.object? h).isSome) (a : α) :
    (r.allocate a).2.object? h = r.object? h := by
  rw [object?_allocate, if_neg (ne_allocate_of_isSome hh a)]

theorem object?_update (r : Registry κ α) (h h' : Handle) (a : α) :
    (r.update h a).object? h' = if h' = h then (r.object? h).map fun _ => a else r.object? h' := by
  obtain ⟨i⟩ := h
  obtain ⟨j⟩ := h'
  by_cases hij : j = i
  · subst hij
    simp [object?, update, List.getElem?_set_self']
    rfl
  · simp [object?, update, hij, List.getElem?_set_ne (Ne.symm hij)]

/-- The providers of a registry and the number of its objects are those of another. -/
structure Retains (r s : Registry κ α) : Prop where
  shelves : s.shelves = r.shelves
  counts : s.counts = r.counts
  length : s.objects.length = r.objects.length

theorem Retains.refl (r : Registry κ α) : r.Retains r := ⟨rfl, rfl, rfl⟩

theorem Retains.trans {r s t : Registry κ α} (h : r.Retains s) (h' : s.Retains t) : r.Retains t :=
  ⟨h'.shelves.trans h.shelves, h'.counts.trans h.counts, h'.length.trans h.length⟩

theorem retains_update (r : Registry κ α) (h : Handle) (a : α) : r.Retains (r.update h a) :=
  ⟨rfl, rfl, by simp [update]⟩

theorem Retains.isSome {r s : Registry κ α} (h : r.Retains s) {i : Handle} :
    (s.object? i).isSome = true ↔ (r.object? i).isSome = true := by
  rw [isSome_object?, isSome_object?, h.length]

/-- The object of a handle, if there is one, is changed. -/
def change (r : Registry κ α) (h : Handle) (f : α → α) : Registry κ α :=
  (r.object? h).elim r fun a => r.update h (f a)

theorem object?_change (r : Registry κ α) (h h' : Handle) (f : α → α) :
    (r.change h f).object? h' = if h' = h then (r.object? h).map f else r.object? h' := by
  cases ha : r.object? h with
  | none =>
    split_ifs with heq
    · rw [heq, change, ha]
      exact ha
    · rw [change, ha]
      rfl
  | some a =>
    rw [change, ha]
    simp [object?_update, ha]

theorem retains_change (r : Registry κ α) (h : Handle) (f : α → α) : r.Retains (r.change h f) := by
  unfold change
  cases r.object? h with
  | none => exact .refl r
  | some a => exact retains_update r h (f a)

/-- The same registry, but for the object of a handle. -/
structure Alike (h : Handle) (r s : Registry κ α) : Prop extends r.Retains s where
  objects : ∀ i ≠ h, s.object? i = r.object? i

theorem Alike.of_retains {h : Handle} {r r' s s' : Registry κ α} (hrs : Alike h r s)
    (hr : r.Retains r') (hs : s.Retains s') (hobjects : ∀ i ≠ h, s'.object? i = r'.object? i) :
    Alike h r' s' :=
  ⟨⟨by rw [hs.shelves, hrs.shelves, hr.shelves], by rw [hs.counts, hrs.counts, hr.counts],
    by rw [hs.length, hrs.length, hr.length]⟩, hobjects⟩

theorem Alike.allocate_fst {h : Handle} {r s : Registry κ α} (hrs : Alike h r s) (a : α) :
    (s.allocate a).1 = (r.allocate a).1 := congrArg Handle.mk hrs.length

theorem Alike.allocate {h : Handle} {r s : Registry κ α} (hrs : Alike h r s) (a : α) :
    Alike h (r.allocate a).2 (s.allocate a).2 := by
  refine ⟨⟨hrs.shelves, hrs.counts, ?_⟩, fun i hi => ?_⟩
  · simp [Registry.allocate, hrs.length]
  · rw [object?_allocate, object?_allocate, hrs.allocate_fst, hrs.objects i hi]

theorem Alike.change {h : Handle} {r s : Registry κ α} (hrs : Alike h r s) {i : Handle} (hi : i ≠ h)
    (f : α → α) : Alike h (r.change i f) (s.change i f) := by
  refine hrs.of_retains (retains_change r i f) (retains_change s i f) fun j hj => ?_
  rw [object?_change, object?_change, hrs.objects i hi, hrs.objects j hj]

section

variable [DecidableEq κ]

theorem Retains.providersOf {r s : Registry κ α} (h : r.Retains s) (c : κ) :
    s.providersOf c = r.providersOf c := by
  rw [Registry.providersOf, h.shelves]
  rfl

theorem Retains.lists {r s : Registry κ α} {log : List (Provider κ α)} (h : r.Retains s)
    (hr : r.Lists log) : s.Lists log := by
  refine ⟨fun c => (h.providersOf c).trans (hr.providersOf c), ?_⟩
  rw [size, h.counts]
  exact hr.size

/-- The registry is this list of providers, and all their objects are there. -/
structure Sound (r : Registry κ α) (log : List (Provider κ α)) : Prop where
  lists : r.Lists log
  objects : ∀ p ∈ log, (r.object? p.canonical).isSome

theorem sound_empty : ({} : Registry κ α).Sound [] := ⟨lists_empty, by simp⟩

theorem Sound.retains {r s : Registry κ α} {log : List (Provider κ α)} (hr : r.Sound log)
    (h : r.Retains s) : s.Sound log :=
  ⟨h.lists hr.lists, fun p hp => h.isSome.mpr (hr.objects p hp)⟩

theorem Sound.allocate {r : Registry κ α} {log : List (Provider κ α)} (hr : r.Sound log) (a : α) :
    (r.allocate a).2.Sound log := by
  refine ⟨⟨hr.lists.providersOf, hr.lists.size⟩, fun p hp => ?_⟩
  rw [object?_allocate_of_isSome (hr.objects p hp) a]
  exact hr.objects p hp

theorem Sound.register [Capability κ] {r : Registry κ α} {log : List (Provider κ α)} (hr : r.Sound log)
    {p : Provider κ α} (hp : (r.object? p.canonical).isSome) : (r.register p).Sound (log ++ [p]) := by
  refine ⟨hr.lists.register p, fun q hq => ?_⟩
  rcases List.mem_append.mp hq with hq | hq
  · exact hr.objects q hq
  · rw [List.mem_singleton.mp hq]
    exact hp

/-- The registry answers as a list of providers says. -/
structure Follows [Capability κ] (r : Registry κ α) (log : List (Provider κ α)) : Prop where
  /-- the last provider of a capability and name is found -/
  find : ∀ c name p, r.find? c name = some p ↔ ∃ before after, log = before ++ p :: after ∧
    p.capability = c ∧ p.name = some name ∧ ∀ q ∈ after, ¬ (q.capability = c ∧ q.name = some name)
  ids : ∀ c, r.ids c = log.filterMap fun p => if p.capability = c then p.name else none
  has : ∀ c name, r.has c name = true ↔ name ∈ r.ids c
  get : ∀ c name, (∃ found, r.get? c name = some found) ↔ name ∈ r.ids c
  require : ∀ c name, (∀ found, r.get? c name = some found → r.require c name = .ok found) ∧
    (name ∉ r.ids c → r.require c name = .error (.notFound name (Capability.label c)))
  services : ∀ c, r.services c = (log.filter fun p => p.capability = c).map Provider.canonical
  objects : ∀ p ∈ log, (r.object? p.canonical).isSome
  size : r.size = log.length

theorem Sound.follows [Capability κ] {r : Registry κ α} {log : List (Provider κ α)} (hr : r.Sound log) :
    r.Follows log where
  find _ _ _ := hr.lists.find?_eq_some_iff
  ids := hr.lists.ids
  has := r.has_iff_mem_ids
  get := r.exists_get?_iff
  require _ _ := ⟨fun _ => require_of_get?, require_of_not_mem_ids⟩
  services := hr.lists.services
  objects := hr.objects
  size := hr.lists.size

/-- An object that no provider refers to. -/
structure Private (r : Registry κ α) (h : Handle) : Prop where
  object : (r.object? h).isSome
  unlisted : ∀ c, h ∉ r.services c

/-- A new object is private. -/
theorem Sound.private_allocate {r : Registry κ α} {log : List (Provider κ α)} (hr : r.Sound log)
    (a : α) : (r.allocate a).2.Private (r.allocate a).1 := by
  refine ⟨by rw [object?_allocate, if_pos rfl]; rfl, fun c hc => ?_⟩
  have hservices : (r.allocate a).2.services c = r.services c := rfl
  rw [hservices, hr.lists.services, List.mem_map] at hc
  obtain ⟨p, hp, hcanonical⟩ := hc
  exact ne_allocate_of_isSome (hr.objects p (List.mem_of_mem_filter hp)) a hcanonical

theorem Private.retains {r s : Registry κ α} {h : Handle} (hh : r.Private h) (hs : r.Retains s) :
    s.Private h := by
  refine ⟨hs.isSome.mpr hh.object, fun c => ?_⟩
  rw [services, hs.providersOf]
  exact hh.unlisted c

theorem Private.allocate {r : Registry κ α} {h : Handle} (hh : r.Private h) (a : α) :
    (r.allocate a).2.Private h := by
  refine ⟨?_, hh.unlisted⟩
  rw [object?_allocate_of_isSome hh.object a]
  exact hh.object

theorem Private.register [Capability κ] {r : Registry κ α} {h : Handle} (hh : r.Private h) {p : Provider κ α}
    (hp : p.canonical ≠ h) : (r.register p).Private h := by
  refine ⟨hh.object, fun c => ?_⟩
  have hunlisted := hh.unlisted c
  rw [services, providersOf_register, List.map_append, List.mem_append, not_or]
  refine ⟨hunlisted, ?_⟩
  split_ifs
  · simpa using hp.symm
  · simp

theorem Alike.register [Capability κ] {h : Handle} {r s : Registry κ α} (hrs : Alike h r s) (p : Provider κ α) :
    Alike h (r.register p) (s.register p) := by
  refine ⟨⟨?_, ?_, hrs.length⟩, hrs.objects⟩
  · rw [Registry.register, Registry.register, hrs.shelves]
  · rw [Registry.register, Registry.register, hrs.counts]

theorem Alike.add [Capability κ] {h : Handle} {r s : Registry κ α} (hrs : Alike h r s) (a : α)
    (p : Handle → Provider κ α) :
    Alike h ((r.allocate a).2.register (p (r.allocate a).1))
      ((s.allocate a).2.register (p (s.allocate a).1)) := by
  rw [hrs.allocate_fst]
  exact (hrs.allocate a).register _

theorem Alike.services {h : Handle} {r s : Registry κ α} (hrs : Alike h r s) (c : κ) :
    s.services c = r.services c := by
  rw [Registry.services, hrs.providersOf]
  rfl

theorem Alike.find? {h : Handle} {r s : Registry κ α} (hrs : Alike h r s) (c : κ) (name : String) :
    s.find? c name = r.find? c name := by
  rw [Registry.find?, hrs.providersOf]
  rfl

end

section

variable [Configurable α]

/-- What an object becomes when it is offered options. -/
def taken (options : Options) (a : α) : α := (Configurable.handle a options).1

/-- Offers options to objects in order, and notes whether any took something. -/
def offerAll (options : Options) (hs : List Handle) (start : Registry κ α × Bool) : Registry κ α × Bool :=
  hs.foldl (fun (r, handled) h =>
    let (r, took) := r.offer options h
    (r, handled || took)) start

theorem offerAll_cons (options : Options) (h : Handle) (hs : List Handle) (r : Registry κ α) (b : Bool) :
    offerAll options (h :: hs) (r, b) =
      offerAll options hs ((r.offer options h).1, b || (r.offer options h).2) := rfl

theorem retains_offer (options : Options) (r : Registry κ α) (h : Handle) :
    r.Retains (r.offer options h).1 := by
  unfold offer
  split
  · exact retains_update r h _
  · exact .refl r

theorem object?_offer (options : Options) (r : Registry κ α) (h h' : Handle) :
    (r.offer options h).1.object? h' =
      if h' = h then (r.object? h).map (taken options) else r.object? h' := by
  unfold offer
  split
  · rename_i a ha
    rw [object?_update, ha]
    rfl
  · rename_i hnone
    split_ifs with heq
    · rw [heq, hnone]
      rfl
    · rfl

theorem offer_snd (options : Options) (r : Registry κ α) (h : Handle) :
    (r.offer options h).2 = true ↔
      ∃ a, r.object? h = some a ∧ (Configurable.handle a options).2 = true := by
  unfold offer
  split
  · rename_i a ha
    simp [ha]
  · rename_i hnone
    simp [hnone]

theorem retains_offerAll (options : Options) (hs : List Handle) (r : Registry κ α) (b : Bool) :
    r.Retains (offerAll options hs (r, b)).1 := by
  induction hs generalizing r b with
  | nil => exact .refl r
  | cons h hs ih => exact (retains_offer options r h).trans (ih _ _)

/-- An object takes the options as often as it is listed. -/
theorem object?_offerAll (options : Options) (hs : List Handle) (r : Registry κ α) (b : Bool)
    (h : Handle) :
    (offerAll options hs (r, b)).1.object? h = (r.object? h).map (taken options)^[hs.count h] := by
  induction hs generalizing r b with
  | nil => simp [offerAll]
  | cons h' hs ih =>
    rw [offerAll_cons, ih, object?_offer, List.count_cons]
    by_cases heq : h = h'
    · subst heq
      simp [Function.iterate_succ]
    · simp [heq, Ne.symm heq]

theorem offerAll_snd (options : Options) (hs : List Handle) (r : Registry κ α) (b : Bool) :
    (offerAll options hs (r, b)).2 = true ↔ b = true ∨ ∃ h a n, r.object? h = some a ∧
      n < hs.count h ∧ (Configurable.handle ((taken options)^[n] a) options).2 = true := by
  induction hs generalizing r b with
  | nil => simp [offerAll]
  | cons h hs ih =>
    rw [offerAll_cons, ih, Bool.or_eq_true, offer_snd, or_assoc]
    -- the first offer to the object at the head is its turn `0`, and puts off its later turns by one
    refine or_congr_right ⟨?_, ?_⟩
    · rintro (⟨a, ha, htook⟩ | ⟨h', a, n, ha, hn, htook⟩)
      · exact ⟨h, a, 0, ha, by simp, htook⟩
      · rw [object?_offer] at ha
        split_ifs at ha with heq
        · subst heq
          obtain ⟨a', ha', rfl⟩ := Option.map_eq_some_iff.mp ha
          exact ⟨h', a', n + 1, ha', by simpa using hn, htook⟩
        · exact ⟨h', a, n, ha, by simpa [List.count_cons, Ne.symm heq] using hn, htook⟩
    · rintro ⟨h', a, n, ha, hn, htook⟩
      by_cases heq : h' = h
      · subst heq
        cases n with
        | zero => exact .inl ⟨a, ha, htook⟩
        | succ n =>
          refine .inr ⟨h', taken options a, n, ?_, by simpa using hn, htook⟩
          rw [object?_offer, if_pos rfl, ha]
          rfl
      · refine .inr ⟨h', a, n, ?_, by simpa [List.count_cons, Ne.symm heq] using hn, htook⟩
        rw [object?_offer, if_neg heq, ha]

end

theorem handleOptions_eq [DecidableEq κ] [Capability κ] [Configurable α] (r : Registry κ α)
    (options : Options) :
    r.handleOptions options = offerAll options (r.services Capability.options) (r, false) := rfl

/-- Whether options are taken depends on the objects that are listed for them alone. -/
theorem handleOptions_snd_congr [DecidableEq κ] [Capability κ] [Configurable α] {r s : Registry κ α}
    (hservices : s.services Capability.options = r.services Capability.options)
    (hobjects : ∀ h ∈ r.services Capability.options, s.object? h = r.object? h) (options : Options) :
    (s.handleOptions options).2 = (r.handleOptions options).2 := by
  rw [Bool.eq_iff_iff, handleOptions_eq, handleOptions_eq, offerAll_snd, offerAll_snd, hservices]
  have hlisted : ∀ i a n, n < (r.services Capability.options).count i →
      (s.object? i = some a ↔ r.object? i = some a) := by
    intro i a n hn
    rw [hobjects i (List.count_pos_iff.mp (Nat.zero_lt_of_lt hn))]
  refine or_congr_right ⟨?_, ?_⟩
  · rintro ⟨i, a, n, ha, hn, htook⟩
    exact ⟨i, a, n, (hlisted i a n hn).mp ha, hn, htook⟩
  · rintro ⟨i, a, n, ha, hn, htook⟩
    exact ⟨i, a, n, (hlisted i a n hn).mpr ha, hn, htook⟩

theorem Alike.handleOptions [DecidableEq κ] [Capability κ] [Configurable α] {h : Handle} {r s : Registry κ α} (hrs : Alike h r s)
    (hr : r.Private h) (options : Options) :
    Alike h (r.handleOptions options).1 (s.handleOptions options).1 ∧
      (s.handleOptions options).2 = (r.handleOptions options).2 := by
  refine ⟨?_, handleOptions_snd_congr (hrs.services _) (fun i hi => hrs.objects i ?_) options⟩
  · rw [handleOptions_eq, handleOptions_eq, hrs.services]
    refine hrs.of_retains (retains_offerAll ..) (retains_offerAll ..) fun i hi => ?_
    rw [object?_offerAll, object?_offerAll, hrs.objects i hi]
  · -- the object of the handle is not listed
    rintro rfl
    exact hr.unlisted _ hi

end QuantumKernels.Registry
