import QuantumKernels.Registry.Basic
import QuantumKernels.Proofs.Dictionary

/-!
# Registries as lists

Shelves and counts follow one list, that of all providers in the order they were registered. A
name is looked up in the list from its end, the services of a capability are read off from its
start.
-/
namespace QuantumKernels

namespace Registry

variable {κ α : Type}

theorem size_eq_sum (r : Registry κ α) : r.size = (r.counts.entries.map (·.2)).sum := by
  rw [size, List.sum, List.foldr_map]

section

variable [DecidableEq κ]

theorem shelf_shelve (p : Provider κ α) (shelves : List (κ × List (Provider κ α))) (c : κ) :
    (((shelve p shelves).find? fun e => e.1 = c).elim [] (·.2)) =
      ((shelves.find? fun e => e.1 = c).elim [] (·.2)) ++ if p.capability = c then [p] else [] := by
  induction shelves with
  | nil =>
    by_cases hp : p.capability = c <;> simp [shelve, hp]
  | cons e rest ih =>
    obtain ⟨d, shelf⟩ := e
    rw [shelve]
    by_cases hd : d = p.capability
    · subst hd
      by_cases hp : p.capability = c <;> simp [hp]
    · by_cases hc : d = c
      · subst hc
        simp [hd, Ne.symm hd]
      · simpa [hd, hc] using ih

theorem providersOf_register [Capability κ] (r : Registry κ α) (p : Provider κ α) (c : κ) :
    (r.register p).providersOf c = r.providersOf c ++ if p.capability = c then [p] else [] :=
  shelf_shelve p r.shelves c

theorem size_register [Capability κ] (r : Registry κ α) (p : Provider κ α) : (r.register p).size = r.size + 1 := by
  rw [size_eq_sum, size_eq_sum]
  exact r.counts.sum_values_alter (Capability.label p.capability) 1

/-- The registry is this list of providers. -/
structure Lists (r : Registry κ α) (log : List (Provider κ α)) : Prop where
  providersOf : ∀ c, r.providersOf c = log.filter fun p => p.capability = c
  size : r.size = log.length

theorem lists_empty : ({} : Registry κ α).Lists [] := ⟨fun _ => rfl, rfl⟩

variable {r : Registry κ α} {log : List (Provider κ α)}

theorem Lists.register [Capability κ] (h : r.Lists log) (p : Provider κ α) :
    (r.register p).Lists (log ++ [p]) := by
  refine ⟨fun c => ?_, ?_⟩
  · rw [providersOf_register, h.providersOf]
    by_cases hp : p.capability = c <;> simp [hp]
  · rw [size_register, h.size, List.length_append, List.length_singleton]

/-- A provider is found if it is the last one of that capability and name. -/
theorem Lists.find?_eq_some_iff (h : r.Lists log) {c : κ} {name : String} {p : Provider κ α} :
    r.find? c name = some p ↔ ∃ before after, log = before ++ p :: after ∧ p.capability = c ∧
      p.name = some name ∧ ∀ q ∈ after, ¬ (q.capability = c ∧ q.name = some name) := by
  rw [find?, h.providersOf, List.findRev?_eq_find?_reverse, ← List.filter_reverse, List.find?_filter,
    List.find?_eq_some_iff_append]
  simp only [decide_eq_true_eq, beq_iff_eq, Bool.not_eq_true', decide_eq_false_iff_not]
  constructor
  · rintro ⟨⟨hc, hname⟩, after, before, hlog, hafter⟩
    refine ⟨before.reverse, after.reverse, ?_, hc, hname, fun q hq => hafter q (by simpa using hq)⟩
    have hreverse := congrArg List.reverse hlog
    simpa using hreverse
  · -- the search runs from the end, so what comes after the provider is passed first
    rintro ⟨before, after, rfl, hc, hname, hafter⟩
    exact ⟨⟨hc, hname⟩, after.reverse, before.reverse, by simp,
      fun q hq => hafter q (by simpa using hq)⟩

theorem Lists.ids (h : r.Lists log) (c : κ) :
    r.ids c = log.filterMap fun p => if p.capability = c then p.name else none := by
  rw [Registry.ids, h.providersOf, List.filterMap_filter]
  simp only [decide_eq_true_eq]

theorem has_iff_mem_ids (r : Registry κ α) (c : κ) (name : String) :
    r.has c name = true ↔ name ∈ r.ids c := by
  rw [has, find?, List.findRev?_eq_find?_reverse, List.find?_isSome, Registry.ids, List.mem_filterMap]
  simp only [List.mem_reverse, beq_iff_eq]

/-- A lookup succeeds if the name is registered. -/
theorem exists_get?_iff (r : Registry κ α) (c : κ) (name : String) :
    (∃ found, r.get? c name = some found) ↔ name ∈ r.ids c := by
  rw [← has_iff_mem_ids, has, get?, ← Option.isSome_iff_exists, Option.isSome_map]

theorem canonical_mem_services_of_find? {c : κ} {name : String} {p : Provider κ α}
    (h : r.find? c name = some p) : p.canonical ∈ r.services c := by
  rw [find?, List.findRev?_eq_find?_reverse] at h
  exact List.mem_map_of_mem (List.mem_reverse.mp (List.mem_of_find?_eq_some h))

/-- A lookup gives the canonical object, or a new one made of the template. -/
theorem get?_of_find? {c : κ} {name : String} {p : Provider κ α}
    (h : r.find? c name = some p) :
    r.get? c name = some (p.template.elim (p.canonical, r) r.allocate) := by
  rw [get?, h, Option.map_some, resolve]
  cases p.template <;> rfl

theorem require_of_get? [Capability κ] {c : κ} {name : String} {found : Handle × Registry κ α}
    (h : r.get? c name = some found) : r.require c name = .ok found := by
  rw [require, h]

theorem require_of_not_mem_ids [Capability κ] {c : κ} {name : String} (h : name ∉ r.ids c) :
    r.require c name = .error (.notFound name (Capability.label c)) := by
  have hnone : r.get? c name = none :=
    Option.eq_none_iff_forall_ne_some.mpr fun found hfound =>
      h ((exists_get?_iff r c name).mp ⟨found, hfound⟩)
  rw [require, hnone]

/-- What a capability's providers are, its services are in the same order. -/
theorem Lists.services (h : r.Lists log) (c : κ) :
    r.services c = (log.filter fun p => p.capability = c).map Provider.canonical := by
  rw [Registry.services, h.providersOf]

end

end Registry

end QuantumKernels
