import QuantumKernels.Proofs.Json.FiniteReal
import QuantumKernels.Proofs.Json.Nesting
import QuantumKernels.Proofs.Outcome

/-!
# Documents with any reals

Whatever reals are in a document, what is written for it is read: a finite real as a real, and any
other as `null`, which is no real. `Accepts` says of one reading and one value when the reading takes
what has been written for the value; it passes from the parts to the whole.
-/
namespace QuantumKernels.Json

/-- What is read of the written form of a document. -/
def reread : Json → Json
  | real x => (numberOfChars (realChars x)).getD null
  | unreadable => null
  | list items => list (rereadItems items)
  | record fields => record (rereadFields fields)
  | v => v
where
  rereadItems : List Json → List Json
    | [] => []
    | v :: rest => v.reread :: rereadItems rest
  rereadFields : List (String × Json) → List (String × Json)
    | [] => []
    | (k, v) :: rest => (k, v.reread) :: rereadFields rest

/-- Every integer in a document fits a word. -/
inductive Worded : Json → Prop
  | null : Worded .null
  | unreadable : Worded .unreadable
  | bool (b : Bool) : Worded (.bool b)
  | int {n : ℤ} (low : -2 ^ 63 ≤ n) (high : n ≤ wordLimit) : Worded (.int n)
  | real (x : Float) : Worded (.real x)
  | text (s : String) : Worded (.text s)
  | list {items : List Json} (h : ∀ v ∈ items, Worded v) : Worded (.list items)
  | record {fields : List (String × Json)} (h : ∀ e ∈ fields, Worded e.2) : Worded (.record fields)

theorem worded_ofNat {n : ℕ} (h : n ≤ wordLimit) : Worded (ofNat n) :=
  .int (by omega) (by exact_mod_cast h)

theorem worded_int64 (n : Int64) : Worded (.int n.toInt) := by
  have hlow := n.le_toInt
  have hhigh := n.toInt_lt
  exact .int (by omega) (by unfold wordLimit; omega)

theorem worded_listOf {α : Type} {f : α → Json} {l : List α} (h : ∀ a ∈ l, Worded (f a)) :
    Worded (listOf f l) := by
  refine .list fun v hv => ?_
  obtain ⟨a, ha, rfl⟩ := List.mem_map.mp hv
  exact h a ha

@[simp]
theorem reread_text (s : String) : (text s).reread = text s := rfl

@[simp]
theorem reread_bool (b : Bool) : (Json.bool b).reread = .bool b := rfl

@[simp]
theorem reread_list (items : List Json) : (list items).reread = list (items.map reread) := by
  have hitems : ∀ items, reread.rereadItems items = items.map reread := by
    intro items
    induction items with
    | nil => rfl
    | cons v rest ih => rw [reread.rereadItems, ih, List.map_cons]
  rw [reread, hitems]

@[simp]
theorem reread_record (fields : List (String × Json)) :
    (record fields).reread = record (fields.map fun e => (e.1, e.2.reread)) := by
  have hfields : ∀ fields, reread.rereadFields fields = fields.map fun e => (e.1, e.2.reread) := by
    intro fields
    induction fields with
    | nil => rfl
    | cons e rest ih => rw [reread.rereadFields, ih, List.map_cons]
  rw [reread, hfields]

/-- What is written for a real is read as a real if it is finite, and as `null` otherwise. -/
theorem reread_real (x : Float) :
    x.isFinite ∧ (∃ y, numberOfChars (realChars x) = some (.real y) ∧ (real x).reread = .real y) ∨
      ¬ x.isFinite ∧ realChars x = "null".toList ∧ (real x).reread = null := by
  by_cases hx : x.isFinite
  · obtain ⟨y, hy⟩ := exists_numberOfChars_realChars hx
    exact .inl ⟨hx, y, hy, by rw [reread, hy, Option.getD_some]⟩
  · refine .inr ⟨hx, by rw [realChars, if_neg hx], ?_⟩
    rw [reread, numberOfChars_realChars_eq_none hx, Option.getD_none]

/-- The form on lines is a spelling of what is read of it. -/
theorem renders_reread {v : Json} (h : Worded v) (level : ℕ) :
    Dialect.document.Renders v.reread (v.prettyChars level) := by
  have hnull : Dialect.document.Renders null "null".toList := .word (w := "null") (by simp [Dialect.document])
  induction h generalizing level with
  | null => exact hnull
  | unreadable => exact hnull
  | bool b => cases b <;> exact .word (by simp [Dialect.document])
  | int low high => exact .int (numberOfChars_intChars low high)
  | real x =>
    rcases reread_real x with ⟨-, y, hread, hy⟩ | ⟨-, hwritten, hlost⟩
    · rw [hy]
      exact .real hread
    · rw [hlost, prettyChars, hwritten]
      exact hnull
  | text s => exact renders_quoteChars s
  | list _ ih =>
    rw [reread_list]
    exact renders_list_prettyChars reread level _ fun v hv => ih v hv (level + 1)
  | record _ ih =>
    rw [reread_record]
    exact renders_record_prettyChars reread level _ fun e he => ih e he (level + 1)

theorem read_pretty_eq_reread {v : Json} (h : Worded v) : read v.pretty = some v.reread :=
  read_of_renders (renders_reread h 0)

/-! ## What readings accept -/

/-- With the nesting of `v` or more left the reading takes what is read of `v`, under the condition `p`. -/
def Accepts {α : Type} (item : Reading α) (nesting : ℕ) (v : Json) (p : Prop) : Prop :=
  (∃ a, item nesting v.reread = some a) ↔ v.depth ≤ nesting ∧ p

theorem Accepts.congr {α : Type} {item : Reading α} {nesting : ℕ} {v : Json} {p q : Prop}
    (h : Accepts item nesting v p) (hpq : p ↔ q) : Accepts item nesting v q := by
  rwa [Accepts, ← hpq]

theorem Accepts.iff {α : Type} {item : Reading α} {nesting : ℕ} {v : Json} {p : Prop}
    (h : Accepts item nesting v p) : (∃ a, item nesting v.reread = some a) ↔ v.depth ≤ nesting ∧ p := h

/-- What has no reals is read as it is. -/
theorem Recovers.accepts {α : Type} {item : Reading α} {nesting : ℕ} {v : Json} {a : α}
    (h : Recovers item nesting v a) (hsame : v.reread = v) : Accepts item nesting v True := by
  simp [Accepts, hsame, h.iff]

theorem accepts_naturals {l : List ℕ} (h : ∀ n ∈ l, n ≤ wordLimit) (nesting : ℕ) :
    Accepts (asList asWord) nesting (naturals l) True :=
  (recovers_naturals h nesting).accepts (by simp [naturals, listOf, ofNat, reread])

theorem accepts_texts (l : List String) (nesting : ℕ) : Accepts (asList asText) nesting (texts l) True :=
  (recovers_texts l nesting).accepts (by simp [texts, listOf])

theorem accepts_real (nesting : ℕ) (x : Float) : Accepts asReal nesting (real x) x.isFinite := by
  have hdepth : (real x).depth ≤ nesting := Nat.zero_le nesting
  rcases reread_real x with ⟨hx, y, -, hy⟩ | ⟨hx, -, hlost⟩
  · simp [Accepts, hy, hx, hdepth, asReal]
  · simp [Accepts, hlost, hx, asReal]

theorem exists_mapM_iff {α β : Type} {f : α → Option β} {l : List α} :
    (∃ bs, l.mapM f = some bs) ↔ ∀ a ∈ l, ∃ b, f a = some b := by
  simp only [mapM_eq_some_iff, exists_forall₂_iff]

section

variable {α β : Type} {item : Reading α} {nesting : ℕ} {v : Json} {p : Prop}

theorem Accepts.map (h : Accepts item nesting v p) (f : α → β) :
    Accepts (fun n w => (item n w).map f) nesting v p := by
  rw [Accepts, ← h.iff]
  simp [Option.map_eq_some_iff]

theorem accepts_listOf {γ : Type} {f : γ → Json} {l : List γ} {q : γ → Prop}
    (h : ∀ n < nesting, ∀ c ∈ l, Accepts item n (f c) (q c)) :
    Accepts (asList item) nesting (listOf f l) (∀ c ∈ l, q c) := by
  cases nesting with
  | zero => simp [Accepts, asList, listOf, depth_list_ne_zero]
  | succ nesting =>
    have hitems := fun c hc => (h nesting (Nat.lt_succ_self nesting) c hc).iff
    simp only [Accepts, listOf, reread_list, asList, exists_mapM_iff, List.forall_mem_map, depth_list_le_succ]
    rw [← forall₂_and]
    exact forall₂_congr hitems

theorem accepts_dictionary {γ : Type} {f : γ → Json} {m : Dictionary γ} {q : γ → Prop}
    (h : ∀ n < nesting, ∀ e ∈ m.entries, Accepts item n (f e.2) (q e.2)) :
    Accepts (asDictionary item) nesting (.record (m.map f).entries) (∀ e ∈ m.entries, q e.2) := by
  cases nesting with
  | zero => simp [Accepts, asDictionary, depth_record_ne_zero]
  | succ nesting =>
    have hvalues := fun e he => (h nesting (Nat.lt_succ_self nesting) e he).iff
    have hread {o : Option (List (String × α))} : (∃ d, o.map Dictionary.ofList = some d) ↔ ∃ l, o = some l := by
      cases o <;> simp
    have hentry {e : String × Json} : (∃ b, ((item nesting e.2).map fun a => (e.1, a)) = some b) ↔
        ∃ a, item nesting e.2 = some a := by
      cases item nesting e.2 <;> simp
    simp only [Accepts, Dictionary.map, reread_record, asDictionary, hread, exists_mapM_iff, hentry,
      List.forall_mem_map, depth_record_le_succ]
    rw [← forall₂_and]
    exact forall₂_congr hvalues

theorem accepts_pair {second : Reading β} {w : Json} {q : Prop} (hv : ∀ n < nesting, Accepts item n v p)
    (hw : ∀ n < nesting, Accepts second n w q) :
    Accepts (asPair item second) nesting (.list [v, w]) (p ∧ q) := by
  cases nesting with
  | zero => simp [Accepts, asPair, depth_list_ne_zero]
  | succ nesting =>
    have hfirst := (hv nesting (Nat.lt_succ_self nesting)).iff
    have hsecond := (hw nesting (Nat.lt_succ_self nesting)).iff
    simp [Accepts, asPair, Option.bind_eq_some_iff, depth_list_le_succ, hfirst, hsecond]
    tauto

theorem accepts_variant {cases : List (String × Reading α)} {name : String} (hcase : cases.lookup name = some item)
    (h : ∀ n < nesting, Accepts item n v p) : Accepts (asVariant cases) nesting (.record [(name, v)]) p := by
  cases nesting with
  | zero => simp [Accepts, asVariant, depth_record_ne_zero]
  | succ nesting =>
    have hitem := (h nesting (Nat.lt_succ_self nesting)).iff
    simp [Accepts, asVariant, hcase, hitem, depth_record_le_succ]

theorem accepts_tagged {cases : List (String × Reading α)} {name : String} (hcase : cases.lookup name = some item)
    (h : ∀ n < nesting, Accepts item n v p) :
    Accepts (asTagged cases) nesting (.record [("type", .text name), ("value", v)]) p := by
  cases nesting with
  | zero => simp [Accepts, asTagged, asRecord, depth_record_ne_zero]
  | succ nesting =>
    have hitem := (h nesting (Nat.lt_succ_self nesting)).iff
    simp [Accepts, asTagged, asRecord, Fields.required, asNameOf, hcase, hitem, depth_record_le_succ]

end

/-- A document on lines is taken exactly under the condition of the reading. -/
theorem exists_readAs_pretty {α : Type} {item : Reading α} {v : Json} {p : Prop} (hworded : Worded v)
    (h : Accepts item nestingLimit v p) :
    (∃ a, readAs item v.pretty = some a) ↔ v.depth ≤ nestingLimit ∧ p := by
  rw [← h.iff, readAs, read_pretty_eq_reread hworded, Option.bind_some]

end QuantumKernels.Json
