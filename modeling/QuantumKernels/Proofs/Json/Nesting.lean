import QuantumKernels.Proofs.Json.Lines
import QuantumKernels.Proofs.Json.Reading

/-!
# The nesting of documents

A written value is read back exactly if the reader may still enter as many lists and records
as the document has inside one another. `Recovers` says so of one reading and one value; it
passes from the parts of a list, a map or a pair to the whole.
-/
namespace QuantumKernels.Json

/-- How many lists and records stand inside one another. -/
def depth : Json → ℕ
  | list items => 1 + deepestItem items
  | record fields => 1 + deepestField fields
  | _ => 0
where
  deepestItem : List Json → ℕ
    | [] => 0
    | v :: rest => max v.depth (deepestItem rest)
  deepestField : List (String × Json) → ℕ
    | [] => 0
    | (_, v) :: rest => max v.depth (deepestField rest)

theorem deepestItem_le {items : List Json} {n : ℕ} :
    depth.deepestItem items ≤ n ↔ ∀ v ∈ items, v.depth ≤ n := by
  induction items with
  | nil => simp [depth.deepestItem]
  | cons v rest ih => simp [depth.deepestItem, ih]

theorem deepestField_le {fields : List (String × Json)} {n : ℕ} :
    depth.deepestField fields ≤ n ↔ ∀ e ∈ fields, e.2.depth ≤ n := by
  induction fields with
  | nil => simp [depth.deepestField]
  | cons e rest ih => simp [depth.deepestField, ih]

theorem depth_list_le_succ {items : List Json} {n : ℕ} :
    (list items).depth ≤ n + 1 ↔ ∀ v ∈ items, v.depth ≤ n := by
  rw [depth, ← deepestItem_le]
  omega

theorem depth_record_le_succ {fields : List (String × Json)} {n : ℕ} :
    (record fields).depth ≤ n + 1 ↔ ∀ e ∈ fields, e.2.depth ≤ n := by
  rw [depth, ← deepestField_le]
  omega

@[simp]
theorem depth_text (s : String) : (text s).depth = 0 := rfl

@[simp]
theorem depth_bool (b : Bool) : (Json.bool b).depth = 0 := rfl

theorem depth_list_ne_zero (items : List Json) : (list items).depth ≠ 0 := by
  rw [depth]
  omega

theorem depth_record_ne_zero (fields : List (String × Json)) : (record fields).depth ≠ 0 := by
  rw [depth]
  omega

/-- With the nesting of `v` or more left the reading gives `a`, and with less it gives nothing. -/
def Recovers {α : Type} (item : Reading α) (nesting : ℕ) (v : Json) (a : α) : Prop :=
  ∀ b, item nesting v = some b ↔ v.depth ≤ nesting ∧ a = b

theorem Recovers.iff {α : Type} {item : Reading α} {nesting : ℕ} {v : Json} {a : α}
    (h : Recovers item nesting v a) (b : α) : item nesting v = some b ↔ v.depth ≤ nesting ∧ a = b :=
  h b

theorem recovers_atom {α : Type} {item : Reading α} {nesting : ℕ} {v : Json} {a : α}
    (hdepth : v.depth = 0) (h : item nesting v = some a) : Recovers item nesting v a := by
  intro b
  simp [hdepth, h]

theorem recovers_text (nesting : ℕ) (s : String) : Recovers asText nesting (.text s) s :=
  recovers_atom rfl rfl

theorem recovers_word {n : ℕ} (h : n ≤ wordLimit) (nesting : ℕ) :
    Recovers asWord nesting (ofNat n) n :=
  recovers_atom rfl (asWord_ofNat h nesting)

/-- Where each step gives one result under a condition of its own, all steps together give all
results under all conditions. -/
theorem mapM_eq_some_iff_of_forall {α β : Type} {f : α → Option β} {p : α → Prop} {g : α → β}
    {l : List α} (h : ∀ a ∈ l, ∀ b, f a = some b ↔ p a ∧ g a = b) (bs : List β) :
    l.mapM f = some bs ↔ (∀ a ∈ l, p a) ∧ l.map g = bs := by
  induction l generalizing bs with
  | nil => simp [eq_comm]
  | cons a rest ih =>
    have ha := h a (by simp)
    have hrest := ih fun c hc => h c (by simp [hc])
    simp only [List.mapM_cons, Option.pure_def, Option.bind_eq_bind, Option.bind_eq_some_iff, ha,
      hrest, Option.some.injEq, List.forall_mem_cons, List.map_cons]
    constructor
    · rintro ⟨_, ⟨hp, rfl⟩, _, ⟨hothers, rfl⟩, rfl⟩
      exact ⟨⟨hp, hothers⟩, rfl⟩
    · rintro ⟨⟨hp, hothers⟩, rfl⟩
      exact ⟨g a, ⟨hp, rfl⟩, rest.map g, ⟨hothers, rfl⟩, rfl⟩

theorem recovers_listOf {α : Type} {item : Reading α} {f : α → Json} {l : List α} {nesting : ℕ}
    (h : ∀ n < nesting, ∀ a ∈ l, Recovers item n (f a) a) :
    Recovers (asList item) nesting (listOf f l) l := by
  intro l'
  cases nesting with
  | zero => simp [asList, listOf, depth_list_ne_zero]
  | succ nesting =>
    have hitems := mapM_eq_some_iff_of_forall (h nesting (Nat.lt_succ_self nesting)) l'
    simpa [asList, listOf, depth_list_le_succ, List.mapM_map, Function.comp_def] using hitems

theorem recovers_naturals {l : List ℕ} (h : ∀ n ∈ l, n ≤ wordLimit) (nesting : ℕ) :
    Recovers (asList asWord) nesting (naturals l) l :=
  recovers_listOf fun m _ n hn => recovers_word (h n hn) m

theorem recovers_texts (l : List String) (nesting : ℕ) :
    Recovers (asList asText) nesting (texts l) l :=
  recovers_listOf fun n _ s _ => recovers_text n s

/-- A map is read if the values in it are. -/
theorem recovers_dictionary {α : Type} {item : Reading α} {f : α → Json} {m : Dictionary α}
    {nesting : ℕ} (h : ∀ n < nesting, ∀ e ∈ m.entries, Recovers item n (f e.2) e.2) :
    Recovers (asDictionary item) nesting (.record (m.map f).entries) m := by
  intro m'
  cases nesting with
  | zero => simp [asDictionary, depth_record_ne_zero]
  | succ nesting =>
    have hentry : ∀ e ∈ m.entries, ∀ e', ((item nesting (f e.2)).map fun v => (e.1, v)) = some e' ↔
        (f e.2).depth ≤ nesting ∧ e = e' := by
      intro e he e'
      have hvalue := (h nesting (Nat.lt_succ_self nesting) e he).iff
      simp only [Option.map_eq_some_iff, hvalue]
      constructor
      · rintro ⟨v, ⟨hdepth, rfl⟩, rfl⟩
        exact ⟨hdepth, rfl⟩
      · rintro ⟨hdepth, rfl⟩
        exact ⟨e.2, ⟨hdepth, rfl⟩, rfl⟩
    have hentries := mapM_eq_some_iff_of_forall hentry
    simp only [List.map_id'] at hentries
    simp only [asDictionary, Dictionary.map, List.mapM_map, Function.comp_def,
      Option.map_eq_some_iff, hentries, depth_record_le_succ, List.forall_mem_map]
    constructor
    · rintro ⟨_, ⟨hdepth, rfl⟩, rfl⟩
      exact ⟨hdepth, m.ofList_entries.symm⟩
    · rintro ⟨hdepth, rfl⟩
      exact ⟨m.entries, ⟨hdepth, rfl⟩, m.ofList_entries⟩

theorem Recovers.map {α β : Type} {item : Reading α} {nesting : ℕ} {v : Json} {a : α}
    (h : Recovers item nesting v a) (f : α → β) :
    Recovers (fun n w => (item n w).map f) nesting v (f a) := by
  intro b
  simp only [Option.map_eq_some_iff, h.iff]
  constructor
  · rintro ⟨_, ⟨hdepth, rfl⟩, rfl⟩
    exact ⟨hdepth, rfl⟩
  · rintro ⟨hdepth, rfl⟩
    exact ⟨a, ⟨hdepth, rfl⟩, rfl⟩

theorem recovers_pair {α β : Type} {first : Reading α} {second : Reading β} {v w : Json} {a : α}
    {b : β} {nesting : ℕ} (ha : ∀ n < nesting, Recovers first n v a)
    (hb : ∀ n < nesting, Recovers second n w b) :
    Recovers (asPair first second) nesting (.list [v, w]) (a, b) := by
  intro c
  cases nesting with
  | zero => simp [asPair, depth_list_ne_zero]
  | succ nesting =>
    have hfirst := (ha nesting (Nat.lt_succ_self nesting)).iff
    have hsecond := (hb nesting (Nat.lt_succ_self nesting)).iff
    simp only [asPair, Option.pure_def, Option.bind_eq_bind, Option.bind_eq_some_iff, hfirst,
      hsecond, Option.some.injEq, depth_list_le_succ, List.forall_mem_cons, List.not_mem_nil,
      false_implies, implies_true, and_true]
    constructor
    · rintro ⟨_, ⟨hv, rfl⟩, _, ⟨hw, rfl⟩, rfl⟩
      exact ⟨⟨hv, hw⟩, rfl⟩
    · rintro ⟨⟨hv, hw⟩, rfl⟩
      exact ⟨a, ⟨hv, rfl⟩, b, ⟨hw, rfl⟩, rfl⟩

/-- A value under its kind is read if it is read as one of that kind. -/
theorem recovers_variant {α : Type} {cases : List (String × Reading α)} {name : String}
    {item : Reading α} {v : Json} {a : α} {nesting : ℕ} (hcase : cases.lookup name = some item)
    (h : ∀ n < nesting, Recovers item n v a) :
    Recovers (asVariant cases) nesting (.record [(name, v)]) a := by
  intro b
  cases nesting with
  | zero => simp [asVariant, depth_record_ne_zero]
  | succ nesting =>
    have hitem := (h nesting (Nat.lt_succ_self nesting)).iff
    simp [asVariant, hcase, hitem, depth_record_le_succ]

theorem recovers_tagged {α : Type} {cases : List (String × Reading α)} {name : String}
    {item : Reading α} {v : Json} {a : α} {nesting : ℕ} (hcase : cases.lookup name = some item)
    (h : ∀ n < nesting, Recovers item n v a) :
    Recovers (asTagged cases) nesting (.record [("type", .text name), ("value", v)]) a := by
  intro b
  cases nesting with
  | zero => simp [asTagged, asRecord, depth_record_ne_zero]
  | succ nesting =>
    have hitem := (h nesting (Nat.lt_succ_self nesting)).iff
    simp [asTagged, asRecord, Fields.required, asNameOf, hcase, hitem, depth_record_le_succ]

/-- A record written on lines is read back unless it is nested too deep. -/
theorem readAs_pretty {α : Type} {item : Reading α} {fields : List (String × Json)} {a : α}
    (hlegible : Legible (.record fields)) (h : Recovers item nestingLimit (.record fields) a) :
    readAs item (Json.record fields).pretty =
      if (Json.record fields).depth ≤ nestingLimit then some a else none := by
  rw [readAs, read_pretty hlegible, Option.bind_some]
  split_ifs with hdepth
  · exact (h.iff a).mpr ⟨hdepth, rfl⟩
  · cases hitem : item nestingLimit (.record fields) with
    | none => rfl
    | some b => exact absurd ((h.iff b).mp hitem).1 hdepth

end QuantumKernels.Json
