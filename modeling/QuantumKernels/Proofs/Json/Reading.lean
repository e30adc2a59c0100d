import QuantumKernels.Json.Reading
import QuantumKernels.Proofs.Json.Token

/-!
# Readings of values

Each reading of a value undoes the writing of it. What is read of a record is a matter of its
members alone.
-/
namespace QuantumKernels.Json

theorem asNatural_ofNat {limit n : ℕ} (h : n ≤ limit) (nesting : ℕ) :
    asNatural limit nesting (ofNat n) = some n := by
  simp [asNatural, ofNat, h]

theorem asWord_ofNat {n : ℕ} (h : n ≤ wordLimit) (nesting : ℕ) :
    asWord nesting (ofNat n) = some n := asNatural_ofNat h nesting

theorem asReal_real (nesting : ℕ) (x : Float) : asReal nesting (.real x) = some x := rfl

theorem asInt64_toInt (nesting : ℕ) (n : Int64) : asInt64 nesting (.int n.toInt) = some n := by
  have hlow := n.le_toInt
  have hhigh := n.toInt_lt
  rw [asInt64, if_pos ⟨hlow, hhigh⟩, Int64.ofInt_toInt]

/-- A list is read if its items are. -/
theorem asList_listOf {α : Type} {item : Reading α} {f : α → Json} {l : List α} {nesting : ℕ}
    (h : ∀ a ∈ l, item nesting (f a) = some a) :
    asList item (nesting + 1) (listOf f l) = some l := by
  induction l with
  | nil => rfl
  | cons a rest ih =>
    have ha : item nesting (f a) = some a := h a (by simp)
    have hrest : (rest.map f).mapM (item nesting) = some rest := ih fun b hb => h b (by simp [hb])
    simp [asList, listOf, ha, hrest]

theorem asList_naturals {l : List ℕ} (h : ∀ n ∈ l, n ≤ wordLimit) (nesting : ℕ) :
    asList asWord (nesting + 1) (naturals l) = some l :=
  asList_listOf fun n hn => asWord_ofNat (h n hn) nesting

theorem legible_ofNat {n : ℕ} (h : n ≤ wordLimit) : Legible (ofNat n) :=
  .int (by omega) (by exact_mod_cast h)

theorem legible_int64 (n : Int64) : Legible (.int n.toInt) := by
  have hlow := n.le_toInt
  have hhigh := n.toInt_lt
  exact .int (by omega) (by unfold wordLimit; omega)

theorem legible_listOf {α : Type} {f : α → Json} {l : List α} (h : ∀ a ∈ l, Legible (f a)) :
    Legible (listOf f l) := by
  refine .list fun v hv => ?_
  obtain ⟨a, ha, rfl⟩ := List.mem_map.mp hv
  exact h a ha

theorem isReadable_text (nesting : ℕ) (s : String) : isReadable nesting (.text s) := by
  cases nesting <;> rfl

theorem isReadable_bool (nesting : ℕ) (b : Bool) : isReadable nesting (.bool b) := by
  cases nesting <;> rfl

theorem isReadable_real (nesting : ℕ) (x : Float) : isReadable nesting (.real x) := by
  cases nesting <;> rfl

theorem isReadable_ofNat (nesting n : ℕ) : isReadable nesting (ofNat n) := by
  cases nesting <;> rfl

theorem isReadable_listOf {α : Type} {f : α → Json} {l : List α} {nesting : ℕ}
    (h : ∀ a ∈ l, isReadable nesting (f a)) : isReadable (nesting + 1) (listOf f l) := by
  simpa [isReadable, listOf] using h

theorem isReadable_naturals (l : List ℕ) (nesting : ℕ) : isReadable (nesting + 1) (naturals l) :=
  isReadable_listOf fun n _ => isReadable_ofNat nesting n

/-- The member of that name of a record; a list stands for the values of the leading fields. -/
def member? (names : List String) (name : String) : Json → Option Json
  | record fields => (fields.find? fun e => e.1 == name).map (·.2)
  | list items => (names.zip items).lookup name
  | _ => none

theorem asRecord_eq_some {α : Type} {names : List String} {body : Fields → Option α} {nesting : ℕ}
    {v : Json} {a : α} (h : asRecord names body nesting v = some a) :
    ∃ f : Fields, body f = some a ∧ ∀ name, f.value? name = member? names name v := by
  cases nesting with
  | zero => simp [asRecord] at h
  | succ nesting =>
    cases v with
    | record fields =>
      simp only [asRecord] at h
      split at h
      · exact ⟨_, h, fun _ => rfl⟩
      · simp at h
    | list items =>
      simp only [asRecord] at h
      split at h
      · exact ⟨_, h, fun _ => rfl⟩
      · simp at h
    | _ => simp [asRecord] at h

theorem asList_eq_some {α : Type} {item : Reading α} {nesting : ℕ} {v : Json} {l : List α}
    (h : asList item nesting v = some l) :
    ∃ items inner, v = .list items ∧ items.mapM (item inner) = some l := by
  cases nesting with
  | zero => simp [asList] at h
  | succ nesting =>
    cases v with
    | list items => exact ⟨items, nesting, rfl, h⟩
    | _ => simp [asList] at h

theorem asText_eq_some {nesting : ℕ} {v : Json} {s : String} (h : asText nesting v = some s) :
    v = .text s := by
  cases v with
  | text t => simpa [asText] using h
  | _ => simp [asText] at h

theorem Fields.required_eq_some {α : Type} {f : Fields} {name : String} {item : Reading α} {a : α}
    (h : f.required name item = some a) : ∃ v, f.value? name = some v ∧ item f.nesting v = some a :=
  Option.bind_eq_some_iff.mp h

theorem sizeOf_member?_lt {names : List String} {name : String} {v w : Json} (h : v.member? names name = some w) :
    sizeOf w < sizeOf v := by
  cases v with
  | record fields =>
    obtain ⟨e, hfind, rfl⟩ := Option.map_eq_some_iff.mp h
    have hmem := List.sizeOf_lt_of_mem (List.mem_of_find?_eq_some hfind)
    obtain ⟨_, w⟩ := e
    simp only [Prod.mk.sizeOf_spec, record.sizeOf_spec] at hmem ⊢
    omega
  | list items =>
    obtain ⟨before, after, hzip, -⟩ := List.lookup_eq_some_iff.mp h
    have hpair : (name, w) ∈ names.zip items := hzip ▸ List.mem_append_right before List.mem_cons_self
    have hmem := List.sizeOf_lt_of_mem (List.of_mem_zip hpair).2
    rw [list.sizeOf_spec]
    omega
  | _ => cases h

theorem orElse_eq_some {α : Type} {f : Fields} {name : String} {item : Reading α} {default a : α}
    (h : f.orElse name item default = some a) :
    (∃ v, f.value? name = some v ∧ item f.nesting v = some a) ∨ f.value? name = none ∧ a = default := by
  unfold Fields.orElse at h
  cases hvalue : f.value? name with
  | some v =>
    rw [hvalue] at h
    exact .inl ⟨v, rfl, h⟩
  | none =>
    rw [hvalue] at h
    exact .inr ⟨rfl, (Option.some.inj h).symm⟩

/-- Where the items of a list are not entered, the nesting that is left for them does not matter. -/
theorem asList_eq_some_of_atoms {α : Type} {item : Reading α} (hitem : ∀ m n, item m = item n) {nesting : ℕ}
    {v : Json} {l : List α} (h : asList item nesting v = some l) : asList item 1 v = some l := by
  obtain ⟨items, inner, rfl, hitems⟩ := asList_eq_some h
  rw [hitem inner 0] at hitems
  exact hitems

theorem asDictionary_eq_some {α : Type} {item : Reading α} {nesting : ℕ} {v : Json} {m : Dictionary α}
    (h : asDictionary item nesting v = some m) : ∃ fields inner l, v = .record fields ∧
      fields.mapM (fun e => (item inner e.2).map fun a => (e.1, a)) = some l ∧ Dictionary.ofList l = m := by
  cases nesting with
  | zero => simp [asDictionary] at h
  | succ nesting =>
    cases v with
    | record fields =>
      obtain ⟨l, hl, rfl⟩ := Option.map_eq_some_iff.mp h
      exact ⟨fields, nesting, l, rfl, hl, rfl⟩
    | _ => simp [asDictionary] at h

theorem asDictionary_eq_some_of_atoms {α : Type} {item : Reading α} (hitem : ∀ m n, item m = item n) {nesting : ℕ}
    {v : Json} {m : Dictionary α} (h : asDictionary item nesting v = some m) : asDictionary item 1 v = some m := by
  obtain ⟨fields, inner, l, rfl, hfields, hl⟩ := asDictionary_eq_some h
  rw [hitem inner 0] at hfields
  exact Option.map_eq_some_iff.mpr ⟨l, hfields, hl⟩

theorem le_of_asWord {nesting n : ℕ} {v : Json} (h : asWord nesting v = some n) : n ≤ wordLimit := by
  unfold asWord asNatural at h
  split at h
  · obtain ⟨hle, hn⟩ := Option.ite_none_right_eq_some.mp h
    exact Option.some.inj hn ▸ hle
  · cases h

theorem asText_nesting (m n : ℕ) : asText m = asText n := by
  funext v
  cases v <;> rfl

theorem asWord_nesting (m n : ℕ) : asWord m = asWord n := by
  funext v
  cases v with
  | int k => cases k <;> rfl
  | _ => rfl

end QuantumKernels.Json
