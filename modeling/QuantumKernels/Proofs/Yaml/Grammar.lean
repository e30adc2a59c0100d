import QuantumKernels.Yaml.Node
import QuantumKernels.Proofs.Outcome

/-!
# The grammar of nodes

What tokens a node is written with, by the place it stands at, and that nothing else is read as one,
however many steps the reading is given.
-/
namespace QuantumKernels.Yaml

/-- Where a node stands. -/
inductive Place where
  | block
  /-- a key or value of a record in block form, where a list may stand at the column of its key -/
  | entry
  | flow
deriving DecidableEq, Repr

namespace Place

def isBlock : Place → Bool
  | flow => false
  | _ => true

def indentless : Place → Bool
  | entry => true
  | _ => false

end Place

inductive Category where
  | node (p : Place)
  /-- a node, or nothing, which the empty one stands for -/
  | slot (p : Place)
  /-- what belongs to a key: nothing, or a colon and a slot -/
  | value (p : Place)
  | blockItems
  /-- items without an end of their own -/
  | items
  | blockEntries
  /-- a key and what belongs to it -/
  | pair
  | flowItem
  | flowItems
  | flowEntry
  | flowEntries

open Node

/-- The tokens of a category, and the node they are written for. What comes in a row is written as the
list or record of it. -/
inductive Writes : Category → List Token → Node → Prop
  | scalar {p : Place} (s : String) (plain : Bool) : Writes (.node p) [.scalar s plain] (scalar s plain)
  | flowList {p : Place} {ts : List Token} {items : List Node} (h : Writes .flowItems ts (list items)) :
      Writes (.node p) (.openList :: ts) (list items)
  | flowRecord {p : Place} {ts : List Token} {entries : List (Node × Node)}
      (h : Writes .flowEntries ts (record entries)) : Writes (.node p) (.openRecord :: ts) (record entries)
  | blockList {p : Place} {ts : List Token} {items : List Node} (hp : p.isBlock = true)
      (h : Writes .blockItems ts (list items)) : Writes (.node p) (.blockList :: ts) (list items)
  | blockRecord {p : Place} {ts : List Token} {entries : List (Node × Node)} (hp : p.isBlock = true)
      (h : Writes .blockEntries ts (record entries)) : Writes (.node p) (.blockRecord :: ts) (record entries)
  | indentless {ts : List Token} {items : List Node} (h : Writes .items (.entry :: ts) (list items)) :
      Writes (.node .entry) (.entry :: ts) (list items)
  | empty {p : Place} : Writes (.slot p) [] empty
  | filled {p : Place} {ts : List Token} {n : Node} (h : Writes (.node p) ts n) : Writes (.slot p) ts n
  | noValue {p : Place} : Writes (.value p) [] .empty
  | someValue {p : Place} {ts : List Token} {n : Node} (h : Writes (.slot p) ts n) :
      Writes (.value p) (.value :: ts) n
  | blockItemsEnd : Writes .blockItems [.blockEnd] (list [])
  | blockItemsMore {w ts : List Token} {n : Node} {items : List Node} (hitem : Writes (.slot .block) w n)
      (hrest : Writes .blockItems ts (list items)) : Writes .blockItems (.entry :: (w ++ ts)) (list (n :: items))
  | itemsEnd : Writes .items [] (list [])
  | itemsMore {w ts : List Token} {n : Node} {items : List Node} (hitem : Writes (.slot .block) w n)
      (hrest : Writes .items ts (list items)) : Writes .items (.entry :: (w ++ ts)) (list (n :: items))
  | blockEntriesEnd : Writes .blockEntries [.blockEnd] (record [])
  | blockEntriesMore {v w ts : List Token} {k n : Node} {entries : List (Node × Node)}
      (hkey : Writes (.slot .entry) v k) (hvalue : Writes (.value .entry) w n)
      (hrest : Writes .blockEntries ts (record entries)) :
      Writes .blockEntries (.key :: (v ++ (w ++ ts))) (record ((k, n) :: entries))
  | pair {v w : List Token} {k n : Node} (hkey : Writes (.slot .flow) v k) (hvalue : Writes (.value .flow) w n) :
      Writes .pair (v ++ w) (record [(k, n)])
  | flowItem {w : List Token} {n : Node} (h : Writes (.node .flow) w n) : Writes .flowItem w n
  | pairItem {w : List Token} {n : Node} (h : Writes .pair w n) : Writes .flowItem (.key :: w) n
  | flowItemsEnd : Writes .flowItems [.closeList] (list [])
  | flowItemsLast {w : List Token} {n : Node} (hitem : Writes .flowItem w n) :
      Writes .flowItems (w ++ [.closeList]) (list [n])
  | flowItemsMore {w ts : List Token} {n : Node} {items : List Node} (hitem : Writes .flowItem w n)
      (hrest : Writes .flowItems ts (list items)) : Writes .flowItems (w ++ .comma :: ts) (list (n :: items))
  | keyEntry {w : List Token} {k : Node} (h : Writes (.node .flow) w k) : Writes .flowEntry w (record [(k, .empty)])
  | pairEntry {w : List Token} {n : Node} (h : Writes .pair w n) : Writes .flowEntry (.key :: w) n
  | flowEntriesEnd : Writes .flowEntries [.closeRecord] (record [])
  | flowEntriesLast {w : List Token} {e : Node × Node} (hentry : Writes .flowEntry w (record [e])) :
      Writes .flowEntries (w ++ [.closeRecord]) (record [e])
  | flowEntriesMore {w ts : List Token} {e : Node × Node} {entries : List (Node × Node)}
      (hentry : Writes .flowEntry w (record [e])) (hrest : Writes .flowEntries ts (record entries)) :
      Writes .flowEntries (w ++ .comma :: ts) (record (e :: entries))

/-- The tokens of a text that is one document, which may be marked as such. -/
inductive Document : List Token → Node → Prop
  | nothing : Document [] .empty
  | marked {w : List Token} {n : Node} (h : Writes (.slot .block) w n) (ends : ℕ) :
      Document (.documentStart :: (w ++ List.replicate ends .documentEnd)) n
  | bare {w : List Token} {n : Node} (h : Writes (.node .block) w n) (ends : ℕ) :
      Document (w ++ List.replicate ends .documentEnd) n

/-! ## What is read is written so -/

/-- The entries of a record. -/
def Node.entriesOf : Node → List (Node × Node)
  | record entries => entries
  | _ => []

theorem indentlessItems_of_ne {before : List Node} {fuel : ℕ} {ts : List Token} (h : ts.head? ≠ some .entry) :
    indentlessItems before fuel ts = some (list before, ts) := by
  rcases ts with _ | ⟨t, ts⟩
  · cases fuel <;> rfl
  · cases t <;> first | exact absurd rfl h | (cases fuel <;> rfl)

/-- The item that comes next in a list in brackets. -/
def readItem (fuel : ℕ) : Node.Parse
  | .key :: rest => flowPair [.comma, .closeList] fuel rest
  | ts => parse false false fuel ts

theorem flowItems_of_ne {before : List Node} {fuel : ℕ} {ts : List Token} (h : ts.head? ≠ some .closeList) :
    Node.flowItems before (fuel + 1) ts = (readItem fuel ts).bind fun (item, rest) =>
      match rest with
      | .comma :: rest => Node.flowItems (before ++ [item]) fuel rest
      | .closeList :: rest => some (list (before ++ [item]), rest)
      | _ => none := by
  rcases ts with _ | ⟨t, ts⟩
  · rfl
  · cases t <;> first | exact absurd rfl h | rfl

/-- The tokens before `rest` are those of a category. -/
def Takes (c : Category) (ts rest : List Token) (n : Node) : Prop := ∃ w, ts = w ++ rest ∧ Writes c w n

/-- The entry that comes next in a record in braces, as a record of its own. -/
def readEntry (fuel : ℕ) : Node.Parse
  | .key :: rest => flowPair [.comma, .closeRecord] fuel rest
  | ts => (parse false false fuel ts).map fun (k, rest) => (record [(k, .empty)], rest)

theorem flowEntries_of_ne {before : List (Node × Node)} {fuel : ℕ} {ts : List Token}
    (h : ts.head? ≠ some .closeRecord) :
    Node.flowEntries before (fuel + 1) ts = (readEntry fuel ts).bind fun (entry, rest) =>
      match rest with
      | .comma :: rest => Node.flowEntries (before ++ entry.entriesOf) fuel rest
      | .closeRecord :: rest => some (record (before ++ entry.entriesOf), rest)
      | _ => none := by
  rcases ts with _ | ⟨t, ts⟩
  · rfl
  · cases t <;> first | exact absurd rfl h | rfl

/-- Whatever is read in so many steps is written so. -/
structure SoundWithin (fuel : ℕ) : Prop where
  node : ∀ p ts n rest, parse p.isBlock p.indentless fuel ts = some (n, rest) → Takes (.node p) ts rest n
  blockItems : ∀ before ts n rest, Node.blockItems before fuel ts = some (n, rest) →
    ∃ items, n = list (before ++ items) ∧ Takes .blockItems ts rest (list items)
  items : ∀ before ts n rest, indentlessItems before fuel ts = some (n, rest) → rest.head? ≠ some .entry ∧
    ∃ items, n = list (before ++ items) ∧ Takes .items ts rest (list items)
  blockEntries : ∀ before ts n rest, Node.blockEntries before fuel ts = some (n, rest) →
    ∃ entries, n = record (before ++ entries) ∧ Takes .blockEntries ts rest (record entries)
  flowItems : ∀ before ts n rest, Node.flowItems before fuel ts = some (n, rest) →
    ∃ items, n = list (before ++ items) ∧ Takes .flowItems ts rest (list items)
  pair : ∀ ends ts n rest, flowPair ends fuel ts = some (n, rest) →
    ∃ e, n = record [e] ∧ Takes .pair ts rest n
  flowEntries : ∀ before ts n rest, Node.flowEntries before fuel ts = some (n, rest) →
    ∃ entries, n = record (before ++ entries) ∧ Takes .flowEntries ts rest (record entries)

section

variable {items : List Node} {entries : List (Node × Node)} {fuel : ℕ} {ts rest : List Token} {n : Node}

theorem takes_blockItems_end (hend : ts.head? = some .blockEnd)
    (hread : Node.blockItems items fuel ts = some (n, rest)) :
    ∃ more, n = list (items ++ more) ∧ Takes .blockItems ts rest (list more) := by
  obtain ⟨ts, rfl⟩ := List.head?_eq_some_iff.mp hend
  simp only [Node.blockItems, Option.some.injEq, Prod.mk.injEq] at hread
  obtain ⟨rfl, rfl⟩ := hread
  exact ⟨[], by rw [List.append_nil], [.blockEnd], rfl, .blockItemsEnd⟩

theorem takes_blockEntries_end (hend : ts.head? = some .blockEnd)
    (hread : Node.blockEntries entries fuel ts = some (n, rest)) :
    ∃ more, n = record (entries ++ more) ∧ Takes .blockEntries ts rest (record more) := by
  obtain ⟨ts, rfl⟩ := List.head?_eq_some_iff.mp hend
  simp only [Node.blockEntries, Option.some.injEq, Prod.mk.injEq] at hread
  obtain ⟨rfl, rfl⟩ := hread
  exact ⟨[], by rw [List.append_nil], [.blockEnd], rfl, .blockEntriesEnd⟩

theorem takes_flowItems_end (hend : ts.head? = some .closeList)
    (hread : Node.flowItems items fuel ts = some (n, rest)) :
    ∃ more, n = list (items ++ more) ∧ Takes .flowItems ts rest (list more) := by
  obtain ⟨ts, rfl⟩ := List.head?_eq_some_iff.mp hend
  simp only [Node.flowItems, Option.some.injEq, Prod.mk.injEq] at hread
  obtain ⟨rfl, rfl⟩ := hread
  exact ⟨[], by rw [List.append_nil], [.closeList], rfl, .flowItemsEnd⟩

theorem takes_flowEntries_end (hend : ts.head? = some .closeRecord)
    (hread : Node.flowEntries entries fuel ts = some (n, rest)) :
    ∃ more, n = record (entries ++ more) ∧ Takes .flowEntries ts rest (record more) := by
  obtain ⟨ts, rfl⟩ := List.head?_eq_some_iff.mp hend
  simp only [Node.flowEntries, Option.some.injEq, Prod.mk.injEq] at hread
  obtain ⟨rfl, rfl⟩ := hread
  exact ⟨[], by rw [List.append_nil], [.closeRecord], rfl, .flowEntriesEnd⟩

theorem blockItems_zero (h : ts.head? ≠ some .blockEnd) : Node.blockItems items 0 ts = none := by
  rcases ts with _ | ⟨t, ts⟩
  · rfl
  · cases t <;> first | exact absurd rfl h | rfl

theorem blockEntries_zero (h : ts.head? ≠ some .blockEnd) : Node.blockEntries entries 0 ts = none := by
  rcases ts with _ | ⟨t, ts⟩
  · rfl
  · cases t <;> first | exact absurd rfl h | rfl

theorem flowItems_zero (h : ts.head? ≠ some .closeList) : Node.flowItems items 0 ts = none := by
  rcases ts with _ | ⟨t, ts⟩
  · rfl
  · cases t <;> first | exact absurd rfl h | rfl

theorem flowEntries_zero (h : ts.head? ≠ some .closeRecord) : Node.flowEntries entries 0 ts = none := by
  rcases ts with _ | ⟨t, ts⟩
  · rfl
  · cases t <;> first | exact absurd rfl h | rfl

end

namespace SoundWithin

variable {fuel : ℕ} {p : Place} {ends ts rest : List Token} {n : Node}

theorem slot (h : SoundWithin fuel) (hread : orEmpty ends (parse p.isBlock p.indentless fuel) ts = some (n, rest)) :
    Takes (.slot p) ts rest n := by
  cases ts with
  | nil =>
    cases hread
    exact ⟨[], rfl, .empty⟩
  | cons t ts =>
    rw [orEmpty] at hread
    split at hread
    · cases hread
      exact ⟨[], rfl, .empty⟩
    · obtain ⟨w, hw, hwrites⟩ := h.node p _ n rest hread
      exact ⟨w, hw, .filled hwrites⟩

theorem value (h : SoundWithin fuel) (hread : valueOf ends (parse p.isBlock p.indentless fuel) ts = some (n, rest)) :
    Takes (.value p) ts rest n := by
  unfold valueOf at hread
  split at hread
  · obtain ⟨w, rfl, hwrites⟩ := h.slot hread
    exact ⟨.value :: w, rfl, .someValue hwrites⟩
  · cases hread
    exact ⟨[], rfl, .noValue⟩

theorem parse_succ (h : SoundWithin fuel) (hread : parse p.isBlock p.indentless (fuel + 1) ts = some (n, rest)) :
    Takes (.node p) ts rest n := by
  rcases ts with _ | ⟨t, ts⟩
  · simp [parse] at hread
  cases t with
  | scalar s plain =>
    simp only [parse, Option.some.injEq, Prod.mk.injEq] at hread
    obtain ⟨rfl, rfl⟩ := hread
    exact ⟨[.scalar s plain], rfl, .scalar s plain⟩
  | openList =>
    obtain ⟨items, rfl, w, rfl, hwrites⟩ := h.flowItems [] ts n rest hread
    exact ⟨.openList :: w, rfl, .flowList hwrites⟩
  | openRecord =>
    obtain ⟨entries, rfl, w, rfl, hwrites⟩ := h.flowEntries [] ts n rest hread
    exact ⟨.openRecord :: w, rfl, .flowRecord hwrites⟩
  | blockList =>
    simp only [parse] at hread
    split at hread
    · rename_i hp
      obtain ⟨items, rfl, w, rfl, hwrites⟩ := h.blockItems [] ts n rest hread
      exact ⟨.blockList :: w, rfl, .blockList hp hwrites⟩
    · cases hread
  | blockRecord =>
    simp only [parse] at hread
    split at hread
    · rename_i hp
      obtain ⟨entries, rfl, w, rfl, hwrites⟩ := h.blockEntries [] ts n rest hread
      exact ⟨.blockRecord :: w, rfl, .blockRecord hp hwrites⟩
    · cases hread
  | entry =>
    simp only [parse] at hread
    split at hread
    · rename_i hp
      obtain ⟨hrest, items, rfl, w, hw, hwrites⟩ := h.items [] (.entry :: ts) n rest hread
      -- the items do not end before the first of them
      rcases w with _ | ⟨t, w⟩
      · rw [List.nil_append] at hw
        rw [← hw] at hrest
        exact absurd rfl hrest
      · cases hw
        obtain rfl : p = .entry := by cases p <;> first | rfl | cases hp
        exact ⟨.entry :: w, rfl, .indentless hwrites⟩
    · cases hread
  | _ => simp [parse] at hread

theorem blockItems_succ (h : SoundWithin fuel) {before : List Node}
    (hread : Node.blockItems before (fuel + 1) ts = some (n, rest)) :
    ∃ items, n = list (before ++ items) ∧ Takes .blockItems ts rest (list items) := by
  rcases ts with _ | ⟨t, ts⟩
  · simp [Node.blockItems] at hread
  cases t with
  | blockEnd => exact takes_blockItems_end rfl hread
  | entry =>
    simp only [Node.blockItems, Option.bind_eq_bind, Option.bind_eq_some_iff] at hread
    obtain ⟨⟨item, ts'⟩, hitem, hread⟩ := hread
    obtain ⟨v, rfl, hv⟩ := h.slot (p := .block) hitem
    obtain ⟨items, rfl, w, rfl, hw⟩ := h.blockItems _ _ _ _ hread
    exact ⟨item :: items, by simp, .entry :: (v ++ w), by simp, .blockItemsMore hv hw⟩
  | _ => simp [Node.blockItems] at hread

theorem items_succ (h : SoundWithin fuel) {before : List Node}
    (hread : indentlessItems before (fuel + 1) ts = some (n, rest)) : rest.head? ≠ some .entry ∧
    ∃ items, n = list (before ++ items) ∧ Takes .items ts rest (list items) := by
  by_cases hentry : ts.head? = some .entry
  · obtain ⟨ts, rfl⟩ := List.head?_eq_some_iff.mp hentry
    simp only [indentlessItems, Option.bind_eq_bind, Option.bind_eq_some_iff] at hread
    obtain ⟨⟨item, ts'⟩, hitem, hread⟩ := hread
    obtain ⟨v, rfl, hv⟩ := h.slot (p := .block) hitem
    obtain ⟨hrest, items, rfl, w, rfl, hw⟩ := h.items _ _ _ _ hread
    exact ⟨hrest, item :: items, by simp, .entry :: (v ++ w), by simp, .itemsMore hv hw⟩
  · rw [indentlessItems_of_ne hentry] at hread
    cases hread
    exact ⟨hentry, [], by rw [List.append_nil], [], rfl, .itemsEnd⟩

theorem blockEntries_succ (h : SoundWithin fuel) {before : List (Node × Node)}
    (hread : Node.blockEntries before (fuel + 1) ts = some (n, rest)) :
    ∃ entries, n = record (before ++ entries) ∧ Takes .blockEntries ts rest (record entries) := by
  rcases ts with _ | ⟨t, ts⟩
  · simp [Node.blockEntries] at hread
  cases t with
  | blockEnd => exact takes_blockEntries_end rfl hread
  | key =>
    simp only [Node.blockEntries, Option.bind_eq_bind, Option.bind_eq_some_iff] at hread
    obtain ⟨⟨k, ts₁⟩, hkey, ⟨v, ts₂⟩, hvalue, hread⟩ := hread
    obtain ⟨u, rfl, hu⟩ := h.slot (p := .entry) hkey
    obtain ⟨w, rfl, hw⟩ := h.value (p := .entry) hvalue
    obtain ⟨entries, rfl, x, rfl, hx⟩ := h.blockEntries _ _ _ _ hread
    exact ⟨(k, v) :: entries, by simp, .key :: (u ++ (w ++ x)), by simp, .blockEntriesMore hu hw hx⟩
  | _ => simp [Node.blockEntries] at hread

theorem pair_succ (h : SoundWithin fuel) (hread : flowPair ends (fuel + 1) ts = some (n, rest)) :
    ∃ e, n = record [e] ∧ Takes .pair ts rest n := by
  simp only [flowPair, Option.bind_eq_bind, Option.bind_eq_some_iff] at hread
  obtain ⟨⟨k, ts₁⟩, hkey, ⟨v, ts₂⟩, hvalue, hread⟩ := hread
  cases hread
  obtain ⟨u, rfl, hu⟩ := h.slot (p := .flow) hkey
  obtain ⟨w, rfl, hw⟩ := h.value (p := .flow) hvalue
  exact ⟨(k, v), rfl, u ++ w, by rw [List.append_assoc], .pair hu hw⟩

theorem flowItem (h : SoundWithin fuel) (hread : readItem fuel ts = some (n, rest)) :
    Takes .flowItem ts rest n := by
  unfold readItem at hread
  split at hread
  · obtain ⟨e, rfl, w, rfl, hw⟩ := h.pair _ _ _ _ hread
    exact ⟨.key :: w, rfl, .pairItem hw⟩
  · obtain ⟨w, rfl, hw⟩ := h.node .flow _ _ _ hread
    exact ⟨w, rfl, .flowItem hw⟩

theorem flowItems_succ (h : SoundWithin fuel) {before : List Node}
    (hread : Node.flowItems before (fuel + 1) ts = some (n, rest)) :
    ∃ items, n = list (before ++ items) ∧ Takes .flowItems ts rest (list items) := by
  by_cases hclose : ts.head? = some .closeList
  · exact takes_flowItems_end hclose hread
  · rw [flowItems_of_ne hclose, Option.bind_eq_some_iff] at hread
    obtain ⟨⟨item, ts₁⟩, hitem, hread⟩ := hread
    obtain ⟨v, rfl, hv⟩ := h.flowItem hitem
    dsimp only at hread
    split at hread
    · obtain ⟨items, rfl, w, rfl, hw⟩ := h.flowItems _ _ _ _ hread
      exact ⟨item :: items, by simp, v ++ .comma :: w, by simp, .flowItemsMore hv hw⟩
    · cases hread
      exact ⟨[item], rfl, v ++ [.closeList], by simp, .flowItemsLast hv⟩
    · cases hread

theorem flowEntry (h : SoundWithin fuel) (hread : readEntry fuel ts = some (n, rest)) :
    ∃ e, n = record [e] ∧ Takes .flowEntry ts rest n := by
  unfold readEntry at hread
  split at hread
  · obtain ⟨e, rfl, w, rfl, hw⟩ := h.pair _ _ _ _ hread
    exact ⟨e, rfl, .key :: w, rfl, .pairEntry hw⟩
  · obtain ⟨⟨k, ts'⟩, hkey, hread⟩ := Option.map_eq_some_iff.mp hread
    cases hread
    obtain ⟨w, rfl, hw⟩ := h.node .flow _ _ _ hkey
    exact ⟨(k, .empty), rfl, w, rfl, .keyEntry hw⟩

theorem flowEntries_succ (h : SoundWithin fuel) {before : List (Node × Node)}
    (hread : Node.flowEntries before (fuel + 1) ts = some (n, rest)) :
    ∃ entries, n = record (before ++ entries) ∧ Takes .flowEntries ts rest (record entries) := by
  by_cases hclose : ts.head? = some .closeRecord
  · exact takes_flowEntries_end hclose hread
  · rw [flowEntries_of_ne hclose, Option.bind_eq_some_iff] at hread
    obtain ⟨⟨entry, ts₁⟩, hentry, hread⟩ := hread
    obtain ⟨e, rfl, v, rfl, hv⟩ := h.flowEntry hentry
    dsimp only at hread
    split at hread
    · obtain ⟨entries, rfl, w, rfl, hw⟩ := h.flowEntries _ _ _ _ hread
      exact ⟨e :: entries, by simp [Node.entriesOf], v ++ .comma :: w, by simp, .flowEntriesMore hv hw⟩
    · cases hread
      exact ⟨[e], rfl, v ++ [.closeRecord], by simp, .flowEntriesLast hv⟩
    · cases hread

theorem zero : SoundWithin 0 where
  node p ts n rest hread := by simp [parse] at hread
  blockItems before ts n rest hread := by
    by_cases hend : ts.head? = some .blockEnd
    · exact takes_blockItems_end hend hread
    · rw [blockItems_zero hend] at hread
      cases hread
  items before ts n rest hread := by
    by_cases hentry : ts.head? = some .entry
    · obtain ⟨ts, rfl⟩ := List.head?_eq_some_iff.mp hentry
      cases hread
    · rw [indentlessItems_of_ne hentry] at hread
      cases hread
      exact ⟨hentry, [], by rw [List.append_nil], [], rfl, .itemsEnd⟩
  blockEntries before ts n rest hread := by
    by_cases hend : ts.head? = some .blockEnd
    · exact takes_blockEntries_end hend hread
    · rw [blockEntries_zero hend] at hread
      cases hread
  flowItems before ts n rest hread := by
    by_cases hclose : ts.head? = some .closeList
    · exact takes_flowItems_end hclose hread
    · rw [flowItems_zero hclose] at hread
      cases hread
  pair ends ts n rest hread := by simp [flowPair] at hread
  flowEntries before ts n rest hread := by
    by_cases hclose : ts.head? = some .closeRecord
    · exact takes_flowEntries_end hclose hread
    · rw [flowEntries_zero hclose] at hread
      cases hread

theorem all (fuel : ℕ) : SoundWithin fuel := by
  induction fuel with
  | zero => exact zero
  | succ fuel ih =>
    exact {
      node := fun _ _ _ _ => ih.parse_succ
      blockItems := fun _ _ _ _ => ih.blockItems_succ
      items := fun _ _ _ _ => ih.items_succ
      blockEntries := fun _ _ _ _ => ih.blockEntries_succ
      flowItems := fun _ _ _ _ => ih.flowItems_succ
      pair := fun _ _ _ _ => ih.pair_succ
      flowEntries := fun _ _ _ _ => ih.flowEntries_succ }

end SoundWithin

end QuantumKernels.Yaml
