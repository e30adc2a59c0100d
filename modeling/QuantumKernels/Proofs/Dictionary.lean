import QuantumKernels.Dictionary
import Mathlib

/-!
# Sums over dictionaries

What the bindings of a map add up to, each counted in some way, and what one more binding does to it.
-/
namespace QuantumKernels.Dictionary

variable {α M : Type}

/-- A key that comes before all others has no binding among them. -/
theorem find?_eq_none_of_lt {k : String} {l : List (String × α)} (h : ∀ e ∈ l, k < e.1) :
    (l.find? fun e => e.1 == k) = none := by
  apply List.find?_eq_none.mpr
  intro e he hk
  have hlt := h e he
  rw [beq_iff_eq.mp hk] at hlt
  exact String.lt_irrefl k hlt

theorem sum_insertEntry [AddCommMonoid M] (g : String × α → M) (k : String) (v : α) {l : List (String × α)}
    (h : l.Pairwise fun a b => a.1 < b.1) :
    ((insertEntry k v l).map g).sum + (l.find? fun e => e.1 == k).elim 0 g = (l.map g).sum + g (k, v) := by
  induction l with
  | nil => simp [insertEntry]
  | cons e rest ih =>
    obtain ⟨hfirst, hrest⟩ := List.pairwise_cons.mp h
    rw [insertEntry]
    split
    · rename_i hlt
      have hbefore : ∀ d ∈ e :: rest, k < d.1 := by
        intro d hd
        rcases List.mem_cons.mp hd with rfl | hd
        · exact hlt
        · exact String.lt_trans hlt (hfirst d hd)
      rw [find?_eq_none_of_lt hbefore, List.map_cons, List.sum_cons, Option.elim_none, add_zero, add_comm]
    · split
      · rename_i heq
        simp only [heq, List.find?_cons, BEq.rfl, Option.elim_some, List.map_cons, List.sum_cons]
        abel
      · rename_i hne
        have hother : (e.1 == k) = false := beq_false_of_ne fun he => hne he.symm
        rw [List.find?_cons, hother, List.map_cons, List.sum_cons, List.map_cons, List.sum_cons, add_assoc,
          ih hrest, add_assoc]

/-- What a key counts is added to its binding, and so to the sum. -/
theorem sum_alter [AddMonoid α] [AddCancelCommMonoid M] (g : String → α →+ M) (m : Dictionary α) (k : String)
    (v : α) : ((m.alter k fun u => u.getD 0 + v).entries.map fun e => g e.1 e.2).sum =
      (m.entries.map fun e => g e.1 e.2).sum + g k v := by
  have hinsert := sum_insertEntry (fun e => g e.1 e.2) k ((m.get? k).getD 0 + v) m.ascending
  have hold : (m.entries.find? fun e => e.1 == k).elim 0 (fun e => g e.1 e.2) = g k ((m.get? k).getD 0) := by
    unfold get?
    cases hfind : m.entries.find? fun e => e.1 == k with
    | none => exact (map_zero (g k)).symm
    | some e =>
      have hkey := List.find?_some hfind
      rw [beq_iff_eq] at hkey
      rw [← hkey]
      rfl
  rw [hold, map_add, ← add_assoc, add_right_comm] at hinsert
  exact add_right_cancel hinsert

theorem sum_values_alter [AddCancelCommMonoid M] (m : Dictionary M) (k : String) (v : M) :
    ((m.alter k fun u => u.getD 0 + v).entries.map (·.2)).sum = (m.entries.map (·.2)).sum + v :=
  m.sum_alter (fun _ => AddMonoidHom.id M) k v

/-- Of all bindings only that of the key counts. -/
theorem sum_ite_key [AddMonoid M] (m : Dictionary M) (k : String) :
    (m.entries.map fun e => if e.1 = k then e.2 else 0).sum = (m.get? k).getD 0 := by
  obtain ⟨l, ascending⟩ := m
  unfold get?
  dsimp only
  induction l with
  | nil => rfl
  | cons e rest ih =>
    obtain ⟨hfirst, hrest⟩ := List.pairwise_cons.mp ascending
    rw [List.map_cons, List.sum_cons, ih hrest]
    by_cases hkey : e.1 = k
    · simp [hkey, find?_eq_none_of_lt (hkey ▸ hfirst)]
    · simp [hkey]

end QuantumKernels.Dictionary
