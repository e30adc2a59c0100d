import QuantumKernels.Proofs.Yaml.Grammar

/-!
# Reading nodes

Whatever the grammar writes is read back, given a step or two for each token and a follow-up that does
not belong to the node. So the tokens of a text are read as a node just if they are those of one
document.
-/
namespace QuantumKernels.Yaml

open Node

/-- The first token of a node, except for the dash of a list without an end of its own. -/
def Token.opens : Token → Bool
  | .scalar .. | .openList | .openRecord | .blockList | .blockRecord => true
  | _ => false

/-- A token that a node may start with. -/
def Place.Starts (p : Place) (t : Token) : Prop := t.opens = true ∨ p = .entry ∧ t = .entry

/-- What may follow a node, so that it does not go on. -/
def Place.Stops (p : Place) (rest : List Token) : Prop :=
  p = .entry → ∀ t ∈ rest.head?, t = .key ∨ t = .value ∨ t = .blockEnd

theorem Writes.node_head {p : Place} {w : List Token} {n : Node} (h : Writes (.node p) w n) :
    ∃ t v, w = t :: v ∧ p.Starts t := by
  cases h with
  | indentless h => exact ⟨_, _, rfl, .inr ⟨rfl, rfl⟩⟩
  | _ => exact ⟨_, _, rfl, .inl rfl⟩

theorem Writes.blockItems_head {w : List Token} {n : Node} (h : Writes .blockItems w n) :
    ∃ t v, w = t :: v ∧ (t = .entry ∨ t = .blockEnd) := by
  cases h with
  | blockItemsEnd => exact ⟨_, _, rfl, .inr rfl⟩
  | blockItemsMore => exact ⟨_, _, rfl, .inl rfl⟩

theorem Writes.blockEntries_head {w : List Token} {n : Node} (h : Writes .blockEntries w n) :
    ∃ t v, w = t :: v ∧ (t = .key ∨ t = .blockEnd) := by
  cases h with
  | blockEntriesEnd => exact ⟨_, _, rfl, .inr rfl⟩
  | blockEntriesMore => exact ⟨_, _, rfl, .inl rfl⟩

theorem Writes.flow_head {w : List Token} {n : Node} (h : Writes (.node .flow) w n) :
    ∃ t v, w = t :: v ∧ t.opens = true := by
  obtain ⟨t, v, rfl, hopens | ⟨hflow, -⟩⟩ := h.node_head
  · exact ⟨t, v, rfl, hopens⟩
  · cases hflow

theorem Writes.flowItem_ne {w : List Token} {n : Node} (h : Writes .flowItem w n) (rest : List Token) :
    (w ++ rest).head? ≠ some .closeList := by
  cases h with
  | flowItem h =>
    obtain ⟨t, v, rfl, hopens⟩ := h.flow_head
    rintro ⟨⟩
    cases hopens
  | pairItem => simp

theorem Writes.flowEntry_ne {w : List Token} {n : Node} (h : Writes .flowEntry w n) (rest : List Token) :
    (w ++ rest).head? ≠ some .closeRecord := by
  cases h with
  | keyEntry h =>
    obtain ⟨t, v, rfl, hopens⟩ := h.flow_head
    rintro ⟨⟩
    cases hopens
  | pairEntry => simp

/-- What is written is read, given steps enough and a proper follow-up. -/
def Completes : Category → List Token → Node → Prop
  | .node p, w, n => ∀ fuel rest, 2 * w.length ≤ fuel → p.Stops rest →
      parse p.isBlock p.indentless fuel (w ++ rest) = some (n, rest)
  | .slot p, w, n => ∀ ends fuel rest, 2 * w.length ≤ fuel → p.Stops rest → (∀ t ∈ ends, ¬ p.Starts t) →
      (∀ t ∈ rest.head?, t ∈ ends) →
      orEmpty ends (parse p.isBlock p.indentless fuel) (w ++ rest) = some (n, rest)
  | .value p, w, n => ∀ ends fuel rest, 2 * w.length ≤ fuel → p.Stops rest → (∀ t ∈ ends, ¬ p.Starts t) →
      (∀ t ∈ rest.head?, t ∈ ends) → rest.head? ≠ some .value →
      valueOf ends (parse p.isBlock p.indentless fuel) (w ++ rest) = some (n, rest)
  | .blockItems, w, n => ∀ before fuel rest, 2 * w.length ≤ fuel + 1 → ∀ items, n = list items →
      Node.blockItems before fuel (w ++ rest) = some (list (before ++ items), rest)
  | .items, w, n => ∀ before fuel rest, 2 * w.length ≤ fuel + 1 → Place.entry.Stops rest →
      ∀ items, n = list items → indentlessItems before fuel (w ++ rest) = some (list (before ++ items), rest)
  | .blockEntries, w, n => ∀ before fuel rest, 2 * w.length ≤ fuel + 1 → ∀ entries, n = record entries →
      Node.blockEntries before fuel (w ++ rest) = some (record (before ++ entries), rest)
  | .pair, w, n => ∀ ends fuel rest, 2 * w.length < fuel → (∀ t ∈ ends, t.opens = false) → .value ∉ ends →
      (∀ t ∈ rest.head?, t ∈ ends) → flowPair ends fuel (w ++ rest) = some (n, rest)
  | .flowItem, w, n => ∀ fuel rest, 2 * w.length ≤ fuel → (∀ t ∈ rest.head?, t ∈ [.comma, .closeList]) →
      readItem fuel (w ++ rest) = some (n, rest)
  | .flowItems, w, n => ∀ before fuel rest, 2 * w.length ≤ fuel + 1 → ∀ items, n = list items →
      Node.flowItems before fuel (w ++ rest) = some (list (before ++ items), rest)
  | .flowEntry, w, n => ∀ fuel rest, 2 * w.length ≤ fuel → (∀ t ∈ rest.head?, t ∈ [.comma, .closeRecord]) →
      readEntry fuel (w ++ rest) = some (n, rest)
  | .flowEntries, w, n => ∀ before fuel rest, 2 * w.length ≤ fuel + 1 → ∀ entries, n = record entries →
      Node.flowEntries before fuel (w ++ rest) = some (record (before ++ entries), rest)

namespace Completes

variable {p : Place} {v w ts : List Token} {k n : Node} {items : List Node} {entries : List (Node × Node)}

theorem empty (p : Place) : Completes (.slot p) [] .empty := by
  intro ends fuel rest _ _ _ hrest
  rcases rest with _ | ⟨t, rest⟩
  · rfl
  · have hmem : ends.contains t = true := List.contains_iff_mem.mpr (hrest t rfl)
    rw [List.nil_append, orEmpty, if_pos hmem]

theorem filled (hn : Writes (.node p) w n) (h : Completes (.node p) w n) : Completes (.slot p) w n := by
  intro ends fuel rest hfuel hstops hends _
  obtain ⟨t, v, rfl, hstarts⟩ := hn.node_head
  have hmem : ¬ ends.contains t = true := fun hmem => hends t (List.contains_iff_mem.mp hmem) hstarts
  rw [List.cons_append, orEmpty, if_neg hmem]
  exact h fuel rest hfuel hstops

theorem noValue (p : Place) : Completes (.value p) [] .empty := by
  intro ends fuel rest _ _ _ _ hvalue
  rcases rest with _ | ⟨t, rest⟩
  · rfl
  · cases t <;> first | exact absurd rfl hvalue | rfl

theorem someValue (h : Completes (.slot p) w n) : Completes (.value p) (.value :: w) n := by
  intro ends fuel rest hfuel hstops hends hrest _
  rw [List.length_cons] at hfuel
  exact h ends fuel rest (by omega) hstops hends hrest

theorem blockItemsMore (hitem : Completes (.slot .block) w n) (hts : Writes .blockItems ts (list items))
    (h : Completes .blockItems ts (list items)) :
    Completes .blockItems (.entry :: (w ++ ts)) (list (n :: items)) := by
  intro before fuel rest hfuel items' heq
  cases heq
  rw [List.length_cons, List.length_append] at hfuel
  obtain ⟨fuel, rfl⟩ := Nat.exists_eq_add_of_le' (show 1 ≤ fuel by omega)
  have hends : ∀ t ∈ (ts ++ rest).head?, t ∈ [Token.entry, .blockEnd] := by
    obtain ⟨t, v, rfl, ht⟩ := hts.blockItems_head
    simpa using ht
  have hread : orEmpty [.entry, .blockEnd] (parse true false fuel) (w ++ (ts ++ rest)) = some (n, ts ++ rest) :=
    hitem _ fuel _ (by omega) nofun (by simp [Place.Starts, Token.opens]) hends
  rw [List.cons_append, List.append_assoc, Node.blockItems, hread]
  have hrest := h (before ++ [n]) fuel rest (by omega) items rfl
  rwa [List.append_assoc] at hrest

theorem itemsMore (hitem : Completes (.slot .block) w n) (hts : Writes .items ts (list items))
    (h : Completes .items ts (list items)) : Completes .items (.entry :: (w ++ ts)) (list (n :: items)) := by
  intro before fuel rest hfuel hstops items' heq
  cases heq
  rw [List.length_cons, List.length_append] at hfuel
  obtain ⟨fuel, rfl⟩ := Nat.exists_eq_add_of_le' (show 1 ≤ fuel by omega)
  have hends : ∀ t ∈ (ts ++ rest).head?, t ∈ [Token.entry, .key, .value, .blockEnd] := by
    cases hts with
    | itemsEnd => exact fun t ht => by simpa using .inr (hstops rfl t ht)
    | itemsMore => simp
  have hread : orEmpty [.entry, .key, .value, .blockEnd] (parse true false fuel) (w ++ (ts ++ rest)) =
      some (n, ts ++ rest) :=
    hitem _ fuel _ (by omega) nofun (by simp [Place.Starts, Token.opens]) hends
  rw [List.cons_append, List.append_assoc, indentlessItems, hread]
  have hrest := h (before ++ [n]) fuel rest (by omega) hstops items rfl
  rwa [List.append_assoc] at hrest

theorem blockEntriesMore (hw : Writes (.value .entry) w n) (hts : Writes .blockEntries ts (record entries))
    (hkey : Completes (.slot .entry) v k) (hvalue : Completes (.value .entry) w n)
    (h : Completes .blockEntries ts (record entries)) :
    Completes .blockEntries (.key :: (v ++ (w ++ ts))) (record ((k, n) :: entries)) := by
  intro before fuel rest hfuel entries' heq
  cases heq
  rw [List.length_cons, List.length_append, List.length_append] at hfuel
  obtain ⟨fuel, rfl⟩ := Nat.exists_eq_add_of_le' (show 1 ≤ fuel by omega)
  have hstarts : ∀ t ∈ [Token.key, .value, .blockEnd], ¬ Place.entry.Starts t := by
    simp [Place.Starts, Token.opens]
  obtain ⟨t, x, rfl, ht⟩ := hts.blockEntries_head
  have hnext : ∀ t' ∈ (w ++ (t :: x ++ rest)).head?, t' ∈ [Token.key, .value, .blockEnd] := by
    cases hw with
    | noValue => rcases ht with rfl | rfl <;> simp
    | someValue => simp
  have hlast : ∀ t' ∈ (t :: x ++ rest).head?, t' ∈ [Token.key, .value, .blockEnd] := by
    rcases ht with rfl | rfl <;> simp
  have hreadKey : orEmpty [.key, .value, .blockEnd] (parse true true fuel) (v ++ (w ++ (t :: x ++ rest))) =
      some (k, w ++ (t :: x ++ rest)) :=
    hkey _ fuel _ (by omega) (fun _ t' ht' => by simpa using hnext t' ht') hstarts hnext
  have hreadValue : valueOf [.key, .value, .blockEnd] (parse true true fuel) (w ++ (t :: x ++ rest)) =
      some (n, t :: x ++ rest) :=
    hvalue _ fuel _ (by omega) (fun _ t' ht' => by simpa using hlast t' ht') hstarts hlast
      (by rcases ht with rfl | rfl <;> simp)
  rw [List.cons_append, List.append_assoc, List.append_assoc, Node.blockEntries]
  simp only [Option.bind_eq_bind]
  rw [hreadKey, Option.bind_some]
  dsimp only
  rw [hreadValue, Option.bind_some]
  have hrest := h (before ++ [(k, n)]) fuel rest (by omega) entries rfl
  rwa [List.append_assoc] at hrest

theorem pair (hw : Writes (.value .flow) w n) (hkey : Completes (.slot .flow) v k)
    (hvalue : Completes (.value .flow) w n) : Completes .pair (v ++ w) (record [(k, n)]) := by
  intro ends fuel rest hfuel hopens hends hrest
  rw [List.length_append] at hfuel
  obtain ⟨fuel, rfl⟩ := Nat.exists_eq_add_of_le' (show 1 ≤ fuel by omega)
  have hstarts : ∀ t ∈ .value :: ends, ¬ Place.flow.Starts t := by
    simpa [Place.Starts, Token.opens] using hopens
  have hnext : ∀ t ∈ (w ++ rest).head?, t ∈ .value :: ends := by
    cases hw with
    | noValue => exact fun t ht => List.mem_cons_of_mem _ (hrest t ht)
    | someValue => simp
  have hreadKey : orEmpty (.value :: ends) (parse false false fuel) (v ++ (w ++ rest)) = some (k, w ++ rest) :=
    hkey _ fuel _ (by omega) nofun hstarts hnext
  have hreadValue : valueOf ends (parse false false fuel) (w ++ rest) = some (n, rest) :=
    hvalue _ fuel _ (by omega) nofun (fun t ht => hstarts t (List.mem_cons_of_mem _ ht)) hrest
      fun h => hends (hrest _ h)
  rw [List.append_assoc, flowPair]
  simp only [Option.bind_eq_bind]
  rw [hreadKey, Option.bind_some]
  dsimp only
  rw [hreadValue, Option.bind_some]
  rfl

theorem flowItem (hn : Writes (.node .flow) w n) (h : Completes (.node .flow) w n) : Completes .flowItem w n := by
  intro fuel rest hfuel _
  have hread : parse false false fuel (w ++ rest) = some (n, rest) := h fuel rest hfuel nofun
  obtain ⟨t, v, rfl, hopens⟩ := hn.flow_head
  rw [← hread]
  cases t <;> first | rfl | cases hopens

theorem pairItem (h : Completes .pair w n) : Completes .flowItem (.key :: w) n := by
  intro fuel rest hfuel hrest
  rw [List.length_cons] at hfuel
  exact h [.comma, .closeList] fuel rest (by omega) (by simp [Token.opens]) (by simp) hrest

theorem keyEntry (hk : Writes (.node .flow) w k) (h : Completes (.node .flow) w k) :
    Completes .flowEntry w (record [(k, .empty)]) := by
  intro fuel rest hfuel _
  have hread : parse false false fuel (w ++ rest) = some (k, rest) := h fuel rest hfuel nofun
  have hmap : (parse false false fuel (w ++ rest)).map (fun p => (record [(p.1, .empty)], p.2)) =
      some (record [(k, .empty)], rest) := by rw [hread, Option.map_some]
  obtain ⟨t, v, rfl, hopens⟩ := hk.flow_head
  rw [← hmap]
  cases t <;> first | rfl | cases hopens

theorem pairEntry (h : Completes .pair w n) : Completes .flowEntry (.key :: w) n := by
  intro fuel rest hfuel hrest
  rw [List.length_cons] at hfuel
  exact h [.comma, .closeRecord] fuel rest (by omega) (by simp [Token.opens]) (by simp) hrest

theorem flowItemsLast (hn : Writes .flowItem w n) (h : Completes .flowItem w n) :
    Completes .flowItems (w ++ [.closeList]) (list [n]) := by
  intro before fuel rest hfuel items' heq
  cases heq
  rw [List.length_append, List.length_singleton] at hfuel
  obtain ⟨fuel, rfl⟩ := Nat.exists_eq_add_of_le' (show 1 ≤ fuel by omega)
  have hread := h fuel ([.closeList] ++ rest) (by omega) (by simp)
  rw [List.append_assoc, flowItems_of_ne (hn.flowItem_ne _), hread]
  rfl

theorem flowItemsMore (hn : Writes .flowItem w n) (h : Completes .flowItem w n)
    (hts : Completes .flowItems ts (list items)) :
    Completes .flowItems (w ++ .comma :: ts) (list (n :: items)) := by
  intro before fuel rest hfuel items' heq
  cases heq
  rw [List.length_append, List.length_cons] at hfuel
  obtain ⟨fuel, rfl⟩ := Nat.exists_eq_add_of_le' (show 1 ≤ fuel by omega)
  have hread := h fuel (.comma :: ts ++ rest) (by omega) (by simp)
  rw [List.append_assoc, flowItems_of_ne (hn.flowItem_ne _), hread]
  have hrest := hts (before ++ [n]) fuel rest (by omega) items rfl
  rwa [List.append_assoc] at hrest

theorem flowEntriesLast {e : Node × Node} (he : Writes .flowEntry w (record [e]))
    (h : Completes .flowEntry w (record [e])) : Completes .flowEntries (w ++ [.closeRecord]) (record [e]) := by
  intro before fuel rest hfuel entries' heq
  cases heq
  rw [List.length_append, List.length_singleton] at hfuel
  obtain ⟨fuel, rfl⟩ := Nat.exists_eq_add_of_le' (show 1 ≤ fuel by omega)
  have hread := h fuel ([.closeRecord] ++ rest) (by omega) (by simp)
  rw [List.append_assoc, flowEntries_of_ne (he.flowEntry_ne _), hread]
  rfl

theorem flowEntriesMore {e : Node × Node} (he : Writes .flowEntry w (record [e]))
    (h : Completes .flowEntry w (record [e])) (hts : Completes .flowEntries ts (record entries)) :
    Completes .flowEntries (w ++ .comma :: ts) (record (e :: entries)) := by
  intro before fuel rest hfuel entries' heq
  cases heq
  rw [List.length_append, List.length_cons] at hfuel
  obtain ⟨fuel, rfl⟩ := Nat.exists_eq_add_of_le' (show 1 ≤ fuel by omega)
  have hread := h fuel (.comma :: ts ++ rest) (by omega) (by simp)
  rw [List.append_assoc, flowEntries_of_ne (he.flowEntry_ne _), hread]
  have hrest := hts (before ++ [e]) fuel rest (by omega) entries rfl
  rwa [List.append_assoc] at hrest

end Completes

theorem exists_fuel {t : Token} {ts : List Token} {fuel : ℕ} (h : 2 * (t :: ts).length ≤ fuel) :
    ∃ f, fuel = f + 1 ∧ 2 * ts.length ≤ f := by
  rw [List.length_cons] at h
  exact ⟨fuel - 1, by omega, by omega⟩

theorem Writes.completes {c : Category} {w : List Token} {n : Node} (h : Writes c w n) : Completes c w n := by
  induction h with
  | scalar s plain =>
    intro fuel rest hfuel _
    obtain ⟨fuel, rfl, -⟩ := exists_fuel hfuel
    rfl
  | flowList _ ih =>
    intro fuel rest hfuel _
    obtain ⟨fuel, rfl, hfuel⟩ := exists_fuel hfuel
    exact ih [] fuel rest (by omega) _ rfl
  | flowRecord _ ih =>
    intro fuel rest hfuel _
    obtain ⟨fuel, rfl, hfuel⟩ := exists_fuel hfuel
    exact ih [] fuel rest (by omega) _ rfl
  | blockList hp _ ih =>
    intro fuel rest hfuel _
    obtain ⟨fuel, rfl, hfuel⟩ := exists_fuel hfuel
    rw [hp]
    exact ih [] fuel rest (by omega) _ rfl
  | blockRecord hp _ ih =>
    intro fuel rest hfuel _
    obtain ⟨fuel, rfl, hfuel⟩ := exists_fuel hfuel
    rw [hp]
    exact ih [] fuel rest (by omega) _ rfl
  | indentless _ ih =>
    intro fuel rest hfuel hstops
    have hlist := ih [] (fuel - 1) rest (by omega) hstops _ rfl
    obtain ⟨fuel, rfl, hfuel⟩ := exists_fuel hfuel
    exact hlist
  | empty => exact .empty _
  | filled hnode ih => exact .filled hnode ih
  | noValue => exact .noValue _
  | someValue _ ih => exact .someValue ih
  | blockItemsEnd =>
    intro before fuel rest _ items hitems
    cases hitems
    rw [List.append_nil]
    cases fuel <;> rfl
  | blockItemsMore _ hrest ihitem ih => exact .blockItemsMore ihitem hrest ih
  | itemsEnd =>
    intro before fuel rest _ hstops items hitems
    cases hitems
    rw [List.append_nil, List.nil_append, indentlessItems_of_ne fun h => ?_]
    rcases hstops rfl .entry h with h | h | h <;> cases h
  | itemsMore _ hrest ihitem ih => exact .itemsMore ihitem hrest ih
  | blockEntriesEnd =>
    intro before fuel rest _ entries hentries
    cases hentries
    rw [List.append_nil]
    cases fuel <;> rfl
  | blockEntriesMore _ hvalue hrest ihkey ihvalue ih => exact .blockEntriesMore hvalue hrest ihkey ihvalue ih
  | pair _ hvalue ihkey ihvalue => exact .pair hvalue ihkey ihvalue
  | flowItem h ih => exact .flowItem h ih
  | pairItem _ ih => exact .pairItem ih
  | flowItemsEnd =>
    intro before fuel rest _ items hitems
    cases hitems
    rw [List.append_nil]
    cases fuel <;> rfl
  | flowItemsLast h ih => exact .flowItemsLast h ih
  | flowItemsMore h _ ihitem ih => exact .flowItemsMore h ihitem ih
  | keyEntry h ih => exact .keyEntry h ih
  | pairEntry _ ih => exact .pairEntry ih
  | flowEntriesEnd =>
    intro before fuel rest _ entries hentries
    cases hentries
    rw [List.append_nil]
    cases fuel <;> rfl
  | flowEntriesLast h ih => exact .flowEntriesLast h ih
  | flowEntriesMore h _ ihentry ih => exact .flowEntriesMore h ihentry ih

/-! ## Documents -/

theorem all_documentEnd_iff {ts : List Token} :
    ts.all (· == .documentEnd) = true ↔ ∃ ends, ts = List.replicate ends .documentEnd := by
  simp only [List.all_eq_true, beq_iff_eq]
  constructor
  · exact fun h => ⟨ts.length, List.eq_replicate_of_mem h⟩
  · rintro ⟨ends, rfl⟩ t ht
    exact List.eq_of_mem_replicate ht

/-- The node that is read first, and what is left. -/
def readRoot (ts : List Token) : Option (Node × List Token) :=
  match ts with
  | [] => some (.empty, [])
  | .documentStart :: rest => orEmpty [.documentStart, .documentEnd] (parse true false (4 * ts.length + 4)) rest
  | ts => parse true false (4 * ts.length + 4) ts

theorem ofTokens_eq_some_iff_readRoot {ts : List Token} {n : Node} :
    ofTokens ts = some n ↔ ∃ ends, readRoot ts = some (n, List.replicate ends .documentEnd) := by
  have hof : ofTokens ts = (readRoot ts).bind fun p =>
      if p.2.all (· == .documentEnd) then some p.1 else none := by
    rcases ts with _ | ⟨t, ts⟩
    · rfl
    · cases t <;> rfl
  rw [hof, Option.bind_eq_some_iff]
  constructor
  · rintro ⟨⟨root, rest⟩, hread, hroot⟩
    dsimp only at hroot
    split_ifs at hroot with hall
    cases hroot
    obtain ⟨ends, rfl⟩ := all_documentEnd_iff.mp hall
    exact ⟨ends, hread⟩
  · rintro ⟨ends, hread⟩
    exact ⟨_, hread, if_pos (all_documentEnd_iff.mpr ⟨ends, rfl⟩)⟩

theorem head_replicate_documentEnd {ends : ℕ} {t : Token}
    (ht : t ∈ (List.replicate ends Token.documentEnd).head?) : t = .documentEnd :=
  List.eq_of_mem_replicate (List.mem_of_head? ht)

/-- Tokens are read as a node if they are those of one document, written for this node. -/
theorem ofTokens_eq_some_iff {ts : List Token} {n : Node} : ofTokens ts = some n ↔ Document ts n := by
  rw [ofTokens_eq_some_iff_readRoot]
  constructor
  · rintro ⟨ends, hread⟩
    unfold readRoot at hread
    split at hread
    · simp only [Option.some.injEq, Prod.mk.injEq] at hread
      obtain ⟨rfl, -⟩ := hread
      exact .nothing
    · obtain ⟨w, rfl, hw⟩ := (SoundWithin.all _).slot (p := .block) hread
      exact .marked hw ends
    · obtain ⟨w, rfl, hw⟩ := (SoundWithin.all _).node .block _ _ _ hread
      exact .bare hw ends
  · intro h
    cases h with
    | nothing => exact ⟨0, rfl⟩
    | @marked w n h ends =>
      refine ⟨ends, h.completes _ _ _ ?_ nofun ?_ fun t ht => ?_⟩
      · simp only [List.length_cons, List.length_append]
        omega
      · simp [Place.Starts, Token.opens]
      · rw [head_replicate_documentEnd ht]
        simp
    | @bare w n h ends =>
      have hread := h.completes (4 * (w ++ List.replicate ends Token.documentEnd).length + 4)
        (List.replicate ends .documentEnd) (by simp only [List.length_append]; omega) nofun
      refine ⟨ends, ?_⟩
      obtain ⟨t, v, rfl, hstarts⟩ := h.node_head
      rw [← hread]
      cases t <;> first | rfl | (rcases hstarts with hstarts | ⟨hentry, -⟩ <;> contradiction)

/-- The tokens of a document determine what it is. -/
theorem Document.unique {ts : List Token} {m n : Node} (hm : Document ts m) (hn : Document ts n) : m = n := by
  rw [← ofTokens_eq_some_iff] at hm hn
  exact Option.some.inj (hm.symm.trans hn)

end QuantumKernels.Yaml
