/-!
Finite maps from texts, kept in ascending order of their keys, so that two maps with the same
bindings are equal. The view of a map is `get?`; `get?_insert` and `get?_erase` say what the
operations do to it.
-/

namespace QuantumKernels

/-- Bindings in strictly ascending order of their keys. -/
structure Dictionary (α : Type u) where
  entries : List (String × α)
  ascending : entries.Pairwise fun a b => a.1 < b.1

namespace Dictionary

variable {α : Type u} {β : Type v}

/-- Puts a binding in its place, over one of the same key. -/
def insertEntry (k : String) (v : α) : List (String × α) → List (String × α)
  | [] => [(k, v)]
  | e :: rest =>
    if k < e.1 then (k, v) :: e :: rest
    else if k = e.1 then (k, v) :: rest
    else e :: insertEntry k v rest

theorem mem_insertEntry {k : String} {v : α} {e : String × α} {l : List (String × α)}
    (h : e ∈ insertEntry k v l) : e = (k, v) ∨ e ∈ l := by
  induction l with
  | nil => simpa [insertEntry] using h
  | cons d l ih =>
    rw [insertEntry] at h
    split at h
    · simpa using h
    · split at h
      · rcases List.mem_cons.mp h with h | h
        · exact .inl h
        · exact .inr (List.mem_cons_of_mem _ h)
      · rcases List.mem_cons.mp h with h | h
        · exact .inr (h ▸ List.mem_cons_self)
        · exact (ih h).imp_right (List.mem_cons_of_mem _)

theorem lt_of_not_lt_of_ne {a b : String} (h : ¬ a < b) (hne : a ≠ b) : b < a :=
  Decidable.byContradiction fun h' =>
    hne (String.le_antisymm (String.not_lt.mp h') (String.not_lt.mp h))

theorem ascending_insertEntry (k : String) (v : α) {l : List (String × α)}
    (h : l.Pairwise fun a b => a.1 < b.1) :
    (insertEntry k v l).Pairwise fun a b => a.1 < b.1 := by
  induction l with
  | nil => simp [insertEntry]
  | cons e l ih =>
    have he := List.pairwise_cons.mp h
    rw [insertEntry]
    split
    · rename_i hlt
      refine List.pairwise_cons.mpr ⟨fun d hd => ?_, h⟩
      rcases List.mem_cons.mp hd with rfl | hd
      · exact hlt
      · exact String.lt_trans hlt (he.1 d hd)
    · rename_i hnlt
      split
      · rename_i heq
        exact List.pairwise_cons.mpr ⟨fun d hd => heq ▸ he.1 d hd, he.2⟩
      · rename_i hne
        refine List.pairwise_cons.mpr ⟨fun d hd => ?_, ih he.2⟩
        rcases mem_insertEntry hd with rfl | hd
        · exact lt_of_not_lt_of_ne hnlt hne
        · exact he.1 d hd

def empty : Dictionary α := ⟨[], .nil⟩

instance : EmptyCollection (Dictionary α) := ⟨empty⟩
instance : Inhabited (Dictionary α) := ⟨empty⟩

/-- The binding of `k` becomes `v`. -/
def insert (m : Dictionary α) (k : String) (v : α) : Dictionary α :=
  ⟨insertEntry k v m.entries, ascending_insertEntry k v m.ascending⟩

def get? (m : Dictionary α) (k : String) : Option α :=
  (m.entries.find? fun e => e.1 == k).map (·.2)

def contains (m : Dictionary α) (k : String) : Bool := (m.get? k).isSome

def erase (m : Dictionary α) (k : String) : Dictionary α :=
  ⟨m.entries.filter fun e => e.1 != k, m.ascending.filter _⟩

def size (m : Dictionary α) : Nat := m.entries.length

def isEmpty (m : Dictionary α) : Bool := m.entries.isEmpty

def keys (m : Dictionary α) : List String := m.entries.map (·.1)

/-- Later bindings of a key replace earlier ones. -/
def insertMany (m : Dictionary α) (l : List (String × α)) : Dictionary α :=
  l.foldl (fun m e => m.insert e.1 e.2) m

def ofList (l : List (String × α)) : Dictionary α := empty.insertMany l

/-- The binding of `k` becomes `f` of what it was. -/
def alter (m : Dictionary α) (k : String) (f : Option α → α) : Dictionary α :=
  m.insert k (f (m.get? k))

/-- The same keys with other values. -/
def map (f : α → β) (m : Dictionary α) : Dictionary β :=
  ⟨m.entries.map fun e => (e.1, f e.2), m.ascending.map _ fun _ _ h => h⟩

/-- The values in order of their keys, as changed by `f` where it keeps them. -/
def filterMap (f : α → Option β) (m : Dictionary α) : Dictionary β :=
  ofList (m.entries.filterMap fun e => (f e.2).map fun v => (e.1, v))

instance [DecidableEq α] : DecidableEq (Dictionary α) := fun m n =>
  decidable_of_iff (m.entries = n.entries) (by cases m; cases n; simp)

instance [BEq α] : BEq (Dictionary α) := ⟨fun m n => m.entries == n.entries⟩

instance [Repr α] : Repr (Dictionary α) := ⟨fun m p => reprPrec m.entries p⟩

theorem find?_insertEntry (k k' : String) (v : α) (l : List (String × α)) :
    ((insertEntry k v l).find? fun e => e.1 == k').map (·.2) =
      if k = k' then some v else (l.find? fun e => e.1 == k').map (·.2) := by
  induction l with
  | nil => by_cases h : k = k' <;> simp [insertEntry, h]
  | cons e l ih =>
    rw [insertEntry]
    by_cases h : k = k'
    · subst h
      split
      · simp
      · split
        · simp
        · rename_i hne
          have : ¬ e.1 = k := fun he => hne he.symm
          simpa [List.find?_cons, this] using ih
    · split
      · simp [List.find?_cons, h]
      · split
        · rename_i heq
          have : ¬ e.1 = k' := heq ▸ h
          simp [h, this]
        · by_cases he : e.1 = k' <;> simp_all

theorem get?_insert (m : Dictionary α) (k k' : String) (v : α) :
    (m.insert k v).get? k' = if k = k' then some v else m.get? k' :=
  find?_insertEntry k k' v m.entries

theorem get?_empty (k : String) : (empty : Dictionary α).get? k = none := rfl

theorem get?_eq_some_iff (m : Dictionary α) {k : String} {v : α} : m.get? k = some v ↔ (k, v) ∈ m.entries := by
  obtain ⟨l, ascending⟩ := m
  unfold get?
  dsimp only
  induction l with
  | nil => simp
  | cons e rest ih =>
    obtain ⟨hfirst, hrest⟩ := List.pairwise_cons.mp ascending
    obtain ⟨k', v'⟩ := e
    by_cases hk : k' = k
    · subst hk
      have hlater : (k', v) ∉ rest := fun hmem => String.lt_irrefl k' (hfirst (k', v) hmem)
      simp [hlater, eq_comm]
    · simpa [hk, Ne.symm hk] using ih hrest

theorem get?_erase (m : Dictionary α) (k k' : String) :
    (m.erase k).get? k' = if k = k' then none else m.get? k' := by
  unfold get? erase
  dsimp only
  induction m.entries with
  | nil => simp
  | cons e l ih =>
    by_cases h : e.1 = k <;> by_cases h' : e.1 = k' <;> by_cases hk : k = k' <;>
      simp_all

theorem erase_insert (m : Dictionary α) (k : String) (v : α) :
    (m.insert k v).erase k = m.erase k := by
  have hentries : ∀ l : List (String × α),
      (insertEntry k v l).filter (fun e => e.1 != k) = l.filter fun e => e.1 != k := by
    intro l
    induction l with
    | nil => simp [insertEntry]
    | cons e rest ih =>
      rw [insertEntry]
      split
      · simp
      · split
        · rename_i hkey
          simp [← hkey]
        · rw [List.filter_cons, List.filter_cons, ih]
  unfold insert erase
  simp only [hentries]

theorem get?_insertMany_of_notMem {m : Dictionary α} {l : List (String × α)} {k : String}
    (h : ∀ e ∈ l, e.1 ≠ k) : (m.insertMany l).get? k = m.get? k := by
  induction l generalizing m with
  | nil => rfl
  | cons e rest ih =>
    have hrest : (m.insertMany (e :: rest)).get? k = ((m.insert e.1 e.2).insertMany rest).get? k := rfl
    rw [hrest, ih fun d hd => h d (by simp [hd]), get?_insert, if_neg (h e (by simp))]

/-- The bindings of another map go over those that are there. -/
theorem get?_insertMany_entries (m n : Dictionary α) (k : String) :
    (m.insertMany n.entries).get? k = (n.get? k).or (m.get? k) := by
  obtain ⟨l, ascending⟩ := n
  induction l generalizing m with
  | nil => rfl
  | cons e rest ih =>
    obtain ⟨hfirst, hrest⟩ := List.pairwise_cons.mp ascending
    by_cases hk : e.1 = k
    · have hlater : ∀ d ∈ rest, d.1 ≠ k := by
        intro d hd hdk
        have hlt := hfirst d hd
        rw [hk, hdk] at hlt
        exact String.lt_irrefl k hlt
      have hstep : (m.insertMany (e :: rest)).get? k = ((m.insert e.1 e.2).insertMany rest).get? k := rfl
      rw [hstep, get?_insertMany_of_notMem hlater, get?_insert, if_pos hk]
      simp [get?, hk]
    · have hstep : (m.insertMany (e :: rest)).get? k = ((m.insert e.1 e.2).insertMany rest).get? k := rfl
      have hfind := ih (m.insert e.1 e.2) hrest
      rw [get?_insert, if_neg hk] at hfind
      rw [hstep, hfind]
      simp [get?, hk]

theorem mem_of_mem_insertMany {m : Dictionary α} {l : List (String × α)} {e : String × α}
    (h : e ∈ (m.insertMany l).entries) : e ∈ m.entries ∨ e ∈ l := by
  induction l generalizing m with
  | nil => exact .inl h
  | cons d rest ih =>
    rcases ih h with hinsert | hrest
    · rcases mem_insertEntry hinsert with rfl | hm
      · exact .inr List.mem_cons_self
      · exact .inl hm
    · exact .inr (List.mem_cons_of_mem d hrest)

theorem eq_empty_of_isEmpty {m : Dictionary α} (h : m.isEmpty) : m = ∅ := by
  obtain ⟨entries, ascending⟩ := m
  cases entries with
  | nil => rfl
  | cons e rest => cases h

/-- A key above all others comes last. -/
theorem insertEntry_of_lt {k : String} (v : α) {l : List (String × α)} (h : ∀ e ∈ l, e.1 < k) :
    insertEntry k v l = l ++ [(k, v)] := by
  induction l with
  | nil => rfl
  | cons e l ih =>
    have he : e.1 < k := h e (by simp)
    have hnlt : ¬ k < e.1 := fun hlt => String.lt_irrefl k (String.lt_trans hlt he)
    have hne : ¬ k = e.1 := fun heq => String.lt_irrefl k (heq ▸ he)
    rw [insertEntry, if_neg hnlt, if_neg hne, ih fun d hd => h d (by simp [hd]), List.cons_append]

theorem entries_insertMany {m : Dictionary α} {l : List (String × α)}
    (h : (m.entries ++ l).Pairwise fun a b => a.1 < b.1) :
    (m.insertMany l).entries = m.entries ++ l := by
  induction l generalizing m with
  | nil => simp [insertMany]
  | cons e l ih =>
    have hlast : ∀ d ∈ m.entries, d.1 < e.1 := fun d hd =>
      (List.pairwise_append.mp h).2.2 d hd e (by simp)
    have hinsert : (m.insert e.1 e.2).entries = m.entries ++ [e] := insertEntry_of_lt e.2 hlast
    have hrest := @ih (m.insert e.1 e.2) (by simpa [hinsert] using h)
    rw [hinsert, List.append_assoc] at hrest
    exact hrest

/-- The bindings of a map, taken in their order, give the map back. -/
theorem ofList_entries (m : Dictionary α) : ofList m.entries = m := by
  have hentries : (ofList m.entries).entries = m.entries := entries_insertMany m.ascending
  generalize ofList m.entries = n at hentries
  cases n
  cases m
  cases hentries
  rfl

theorem get?_map (f : α → β) (m : Dictionary α) (k : String) : (m.map f).get? k = (m.get? k).map f := by
  unfold get? map
  simp only [List.find?_map, Option.map_map]
  rfl

theorem ascending_filterMap (f : α → Option β) (m : Dictionary α) :
    (m.entries.filterMap fun e => (f e.2).map fun v => (e.1, v)).Pairwise fun a b => a.1 < b.1 := by
  refine m.ascending.filterMap _ fun a b hlt => ?_
  intro a' ha b' hb
  obtain ⟨v, -, rfl⟩ := Option.map_eq_some_iff.mp ha
  obtain ⟨w, -, rfl⟩ := Option.map_eq_some_iff.mp hb
  exact hlt

theorem entries_filterMap (f : α → Option β) (m : Dictionary α) :
    (m.filterMap f).entries = m.entries.filterMap fun e => (f e.2).map fun v => (e.1, v) :=
  entries_insertMany (m := empty) (m.ascending_filterMap f)

theorem get?_filterMap (f : α → Option β) (m : Dictionary α) (k : String) :
    (m.filterMap f).get? k = (m.get? k).bind f := by
  apply Option.ext
  intro v
  rw [get?_eq_some_iff, entries_filterMap, List.mem_filterMap, Option.bind_eq_some_iff]
  constructor
  · rintro ⟨⟨k', u⟩, hmem, hmap⟩
    obtain ⟨w, hw, heq⟩ := Option.map_eq_some_iff.mp hmap
    cases heq
    exact ⟨u, m.get?_eq_some_iff.mpr hmem, hw⟩
  · rintro ⟨u, hget, hu⟩
    exact ⟨(k, u), m.get?_eq_some_iff.mp hget, by rw [hu, Option.map_some]⟩

end Dictionary

end QuantumKernels
