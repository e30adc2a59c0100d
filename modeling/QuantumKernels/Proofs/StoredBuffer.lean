import Mathlib
import QuantumKernels.Buffer.Stored
import QuantumKernels.Proofs.Binary64
import QuantumKernels.Proofs.Json.Nesting

/-!
# Buffers from their stored form

A stored buffer loads back exactly if its document is nested no deeper than documents are read.
Reals without a numeral are stored under their names: there are three of them, and each name stands
for the one it was written for. Sizes and counts have to be machine words, and the finite reals to
read back as they are written.
-/
namespace QuantumKernels

open Json

/-- Every real is finite or has a name. -/
theorem isFinite_or_mem_realNames (x : Float) : x.isFinite = true ∨ ∃ name, (name, x) ∈ realNames := by
  cases hx : x.toModel.unpack with
  | notANumber =>
    have hnan : x.isNaN = true := by
      change x.toModel.unpack.isNaN = true
      rw [hx]
      rfl
    rw [Float.isNaN_eq_decide_eq_nan, decide_eq_true_eq] at hnan
    exact .inr ⟨"NaN", by simp [realNames, hnan, Float.nan]⟩
  | infinity s =>
    cases s with
    | positive =>
      obtain rfl : x = 1 / 0 := Binary64.eq_of_unpack_eq_infinity hx rfl
      exact .inr ⟨"inf", by simp [realNames]⟩
    | negative =>
      obtain rfl : x = -1 / 0 := Binary64.eq_of_unpack_eq_infinity hx rfl
      exact .inr ⟨"-inf", by simp [realNames]⟩
  | zero s =>
    left
    change x.toModel.unpack.isFinite = true
    rw [hx]
    rfl
  | finite s m e h =>
    left
    change x.toModel.unpack.isFinite = true
    rw [hx]
    rfl

theorem realToJson_of_isFinite {x : Float} (h : x.isFinite = true) : realToJson x = .real x := by
  have hkind : x.isNaN = false ∧ x.isInf = false := by
    have hfinite : x.toModel.unpack.isFinite = true := h
    change x.toModel.unpack.isNaN = false ∧ x.toModel.unpack.isInf = false
    cases hx : x.toModel.unpack with
    | notANumber | infinity s =>
      rw [hx] at hfinite
      cases hfinite
    | zero s | finite s m e hm => exact ⟨rfl, rfl⟩
  rw [realToJson, hkind.1, hkind.2]
  rfl

/-- A real is stored under its name, and its name stands for it alone. -/
theorem realToJson_of_mem {name : String} {x : Float} (h : (name, x) ∈ realNames) :
    realToJson x = .text name ∧ realNames.lookup name = some x := by
  simp only [realNames, List.mem_cons, List.not_mem_nil, or_false, Prod.mk.injEq] at h
  rcases h with ⟨rfl, rfl⟩ | ⟨rfl, rfl⟩ | ⟨rfl, rfl⟩ <;> exact ⟨rfl, rfl⟩

theorem recovers_real (x : Float) (nesting : ℕ) : Recovers realReading nesting (realToJson x) x := by
  rcases isFinite_or_mem_realNames x with hfinite | ⟨name, hname⟩
  · rw [realToJson_of_isFinite hfinite]
    exact recovers_atom rfl rfl
  · obtain ⟨hwritten, hread⟩ := realToJson_of_mem hname
    rw [hwritten]
    exact recovers_atom rfl hread

theorem legible_real {x : Float} (h : x.isFinite = true → ReadsBack x) : Legible (realToJson x) := by
  rcases isFinite_or_mem_realNames x with hfinite | ⟨name, hname⟩
  · rw [realToJson_of_isFinite hfinite]
    exact .real (h hfinite)
  · rw [(realToJson_of_mem hname).1]
    exact .text name

namespace Info

def realsOf : Info → List Float
  | real x => [x]
  | reals l => l
  | _ => []

theorem recovers_toJson (i : Info) (nesting : ℕ) : Recovers Info.reading nesting i.toJson i := by
  -- the kind under which an entry is stored picks the reading of its value
  cases i with
  | int n => exact recovers_tagged rfl fun m _ => (recovers_atom rfl (asInt64_toInt m n)).map int
  | real x => exact recovers_tagged rfl fun m _ => (recovers_real x m).map real
  | text s => exact recovers_tagged rfl fun m _ => (recovers_text m s).map text
  | ints l =>
    have hlist : ∀ m, Recovers (asList asInt64) m (listOf (fun n => .int n.toInt) l) l := fun m =>
      recovers_listOf fun n _ k _ => recovers_atom rfl (asInt64_toInt n k)
    exact recovers_tagged rfl fun m _ => (hlist m).map ints
  | reals l =>
    have hlist : ∀ m, Recovers (asList realReading) m (listOf realToJson l) l := fun m =>
      recovers_listOf fun n _ x _ => recovers_real x n
    exact recovers_tagged rfl fun m _ => (hlist m).map reals
  | texts l => exact recovers_tagged rfl fun m _ => (recovers_texts l m).map texts

theorem legible_stored {i : Info} (h : ∀ x ∈ i.realsOf, x.isFinite = true → ReadsBack x) :
    Legible i.stored.2 := by
  cases i with
  | int n => exact legible_int64 n
  | real x => exact legible_real (h x (List.mem_singleton_self x))
  | text s => exact .text s
  | ints l => exact legible_listOf fun n _ => legible_int64 n
  | reals l => exact legible_listOf fun x hx => legible_real (h x hx)
  | texts l => exact legible_listOf fun s _ => .text s

theorem legible_toJson {i : Info} (h : ∀ x ∈ i.realsOf, x.isFinite = true → ReadsBack x) :
    Legible i.toJson :=
  .record (by simp [Legible.text, legible_stored h])

end Info

namespace Buffer

/-- A buffer and all buffers below it. -/
def family : Buffer → List Buffer
  | ⟨name, size, measurements, counts, info, children⟩ =>
    ⟨name, size, measurements, counts, info, children⟩ :: familyOf children
where
  familyOf : List Buffer → List Buffer
    | [] => []
    | b :: rest => b.family ++ familyOf rest

theorem familyOf_eq (l : List Buffer) : family.familyOf l = l.flatMap family := by
  induction l with
  | nil => rfl
  | cons b rest ih => simp [family.familyOf, ih]

theorem toJsonOf_eq (l : List Buffer) : toJson.toJsonOf l = l.map toJson := by
  induction l with
  | nil => rfl
  | cons b rest ih => simp [toJson.toJsonOf, ih]

/-- What holds of a buffer may be shown from all its children. -/
theorem family_induction {P : Buffer → Prop} (step : ∀ b : Buffer, (∀ c ∈ b.children, P c) → P b)
    (b : Buffer) : P b := by
  refine @Buffer.rec P (fun l => ∀ c ∈ l, P c) ?_ ?_ ?_ b
  · exact fun name size measurements counts info children h => step _ h
  · simp
  · intro c rest hc hrest d hd
    rcases List.mem_cons.mp hd with rfl | hd
    · exact hc
    · exact hrest d hd

theorem mem_family_self (b : Buffer) : b ∈ b.family := by
  cases b
  exact List.mem_cons_self

theorem mem_family_of_child {b c d : Buffer} (hc : c ∈ b.children) (hd : d ∈ c.family) : d ∈ b.family := by
  cases b
  rw [family, familyOf_eq]
  exact List.mem_cons_of_mem _ (List.mem_flatMap.mpr ⟨c, hc, hd⟩)

/-- The reals among the entries of a buffer and of all below it. -/
def realsOf (b : Buffer) : List Float :=
  b.family.flatMap fun c => c.info.entries.flatMap fun e => e.2.realsOf

/-- Sizes and counts are machine words, in all buffers below as well. -/
structure Storable (b : Buffer) : Prop where
  sizes : ∀ c ∈ b.family, c.size ≤ wordLimit
  counts : ∀ c ∈ b.family, ∀ e ∈ c.counts.entries, e.2 ≤ wordLimit

theorem Storable.words_eq {b : Buffer} (h : b.Storable) : words b.counts = b.counts :=
  words_of_fitting fun e he => Nat.lt_of_le_of_lt (h.counts b b.mem_family_self e he) (by decide)

theorem Storable.child {b c : Buffer} (h : b.Storable) (hc : c ∈ b.children) : c.Storable :=
  ⟨fun d hd => h.sizes d (mem_family_of_child hc hd), fun d hd => h.counts d (mem_family_of_child hc hd)⟩

/-- All reals of a child are reals of the buffer. -/
theorem realsOf_child_subset {b c : Buffer} (hc : c ∈ b.children) : c.realsOf ⊆ b.realsOf := by
  intro x hx
  obtain ⟨d, hd, hx⟩ := List.mem_flatMap.mp hx
  exact List.mem_flatMap.mpr ⟨d, mem_family_of_child hc hd, hx⟩

theorem mem_realsOf_of_info {b : Buffer} {e : String × Info} (he : e ∈ b.info.entries) {x : Float}
    (hx : x ∈ e.2.realsOf) : x ∈ b.realsOf :=
  List.mem_flatMap.mpr ⟨b, b.mem_family_self, List.mem_flatMap.mpr ⟨e, he, hx⟩⟩

theorem recovers_toJson {b : Buffer} (h : b.Storable) {bound nesting : ℕ} (hbound : nesting ≤ bound) :
    Recovers (readingTo bound) nesting b.toJson b := by
  -- each child enters the record of its buffer and the list in it, so the bound never decides
  induction b using family_induction generalizing bound nesting with
  | step b ih =>
    obtain ⟨name, size, measurements, counts, info, children⟩ := b
    have hsize : size ≤ wordLimit := h.sizes _ (mem_family_self _)
    have hcounts : ∀ e ∈ counts.entries, e.2 ≤ wordLimit := h.counts _ (mem_family_self _)
    have hwords : words counts = counts := h.words_eq
    intro b'
    rcases nesting with _ | nesting
    · cases bound <;> simp [readingTo, toJson, asRecord, depth_record_ne_zero]
    obtain _ | bound := bound
    · omega
    have hword := (recovers_word hsize nesting).iff
    have htexts := (recovers_texts measurements nesting).iff
    have hmap : Recovers (asDictionary asWord) nesting (.record (counts.map ofNat).entries) counts :=
      recovers_dictionary fun n _ e he => recovers_word (hcounts e he) n
    have hentries : Recovers (asDictionary Info.reading) nesting (.record (info.map Info.toJson).entries) info :=
      recovers_dictionary fun n _ e _ => e.2.recovers_toJson n
    have hlist : Recovers (asList (readingTo bound)) nesting (listOf toJson children) children :=
      recovers_listOf fun n hn c hc => ih c hc (h.child hc) (by omega)
    have hmap' := hmap.iff
    have hentries' := hentries.iff
    have hlist' := hlist.iff
    rw [listOf, ← toJsonOf_eq] at hlist'
    simp only [readingTo, toJson, hwords, depth_record_le_succ]
    simp [asRecord, Fields.required, Fields.orElse, asText, Option.bind_eq_some_iff, *]
    tauto

theorem legible_toJson {b : Buffer} (h : b.Storable)
    (hreals : ∀ x ∈ b.realsOf, x.isFinite = true → ReadsBack x) : Legible b.toJson := by
  induction b using family_induction with
  | step b ih =>
    have hchildren : Legible (listOf toJson b.children) := legible_listOf fun c hc =>
      ih c hc (h.child hc) fun x hx => hreals x (realsOf_child_subset hc hx)
    have hmeasurements : Legible (texts b.measurements) := legible_listOf fun s _ => .text s
    have hsize : Legible (ofNat b.size) := legible_ofNat (h.sizes b b.mem_family_self)
    have hcounts : Legible (.record ((words b.counts).map ofNat).entries) := by
      rw [h.words_eq]
      refine .record fun e he => ?_
      obtain ⟨d, hd, rfl⟩ := List.mem_map.mp he
      exact legible_ofNat (h.counts b b.mem_family_self d hd)
    have hinfo : Legible (.record (b.info.map Info.toJson).entries) := by
      refine .record fun e he => ?_
      obtain ⟨d, hd, rfl⟩ := List.mem_map.mp he
      exact Info.legible_toJson fun x hx => hreals x (mem_realsOf_of_info hd hx)
    rw [listOf, ← toJsonOf_eq] at hchildren
    obtain ⟨name, size, measurements, counts, info, children⟩ := b
    refine .record ?_
    simp [Legible.text, hsize, hmeasurements, hcounts, hinfo, hchildren]

/-- A stored buffer loads back, exactly if its document stays above the 128th level of nesting, where
reading stops: all fields come back as they were, each entry as one of its kind, and a real that is no
number or infinite as itself. That the finite reals in it are read as they are written is assumed. -/
theorem stored_buffer_loads_back (b : Buffer) (hwords : b.Storable)
    (hreals : ∀ x ∈ b.realsOf, x.isFinite = true → ReadsBack x) :
    load? b.persist = if b.toJson.depth ≤ nestingLimit then some b else none := by
  have hlegible := legible_toJson hwords hreals
  have hrecovers := recovers_toJson hwords (le_refl nestingLimit)
  rw [load?, persist]
  cases b
  exact readAs_pretty hlegible hrecovers

/-- A buffer with every kind of entry, lists without items and reals without numerals among them. -/
def describedBuffer : Buffer :=
  { name := "q \"\\\n\x01 ψ😀", size := wordLimit
    measurements := ["01", "", "01"]
    counts := ⟨[("", 1), ("01", 2)], by decide⟩
    info := ⟨[("a", .reals [0 / 0, 0.5, -1 / 0]), ("b", .text "NaN"), ("c", .real (1 / 0)), ("d", .int (-1)),
      ("e", .ints []), ("f", .reals []), ("g", .texts ["inf"]), ("θ", .real (0 / 0))], by decide⟩
    children := [{ name := "", size := 0, info := ⟨[("", .texts [])], by decide⟩ }] }

/-- A buffer below so many others; each of them takes up two levels of the document. -/
def towerBuffer : ℕ → Buffer
  | 0 => .new "q" 1
  | n + 1 => (Buffer.new "q" 1).attach [towerBuffer n]

theorem stored_buffer_loads_back_describedBuffer :
    load? describedBuffer.persist = some describedBuffer ∧
    load? (towerBuffer 62).persist = some (towerBuffer 62) ∧ load? (towerBuffer 63).persist = none := by
  have hreals : describedBuffer.realsOf = [0 / 0, 0.5, -1 / 0, 1 / 0, 0 / 0] := rfl
  have hreadsBack : ∀ x ∈ describedBuffer.realsOf, x.isFinite = true → ReadsBack x := by
    intro x hx hfinite
    rw [hreals] at hx
    simp only [List.mem_cons, List.not_mem_nil, or_false] at hx
    obtain rfl | rfl | rfl | rfl | rfl := hx
    · cases hfinite
    · exact readsBack_half
    all_goals cases hfinite
  have hdescribed := stored_buffer_loads_back describedBuffer ⟨by decide, by decide⟩ hreadsBack
  have htower : ∀ n, (towerBuffer n).Storable → (towerBuffer n).realsOf = [] →
      load? (towerBuffer n).persist = _ := fun n hwords hnone =>
    stored_buffer_loads_back (towerBuffer n) hwords (by simp [hnone])
  rw [if_pos (by decide +kernel)] at hdescribed
  refine ⟨hdescribed, ?_, ?_⟩
  · rw [htower 62 ⟨by decide +kernel, by decide +kernel⟩ rfl, if_pos (by decide +kernel)]
  · rw [htower 63 ⟨by decide +kernel, by decide +kernel⟩ rfl, if_neg (by decide +kernel)]

end Buffer

end QuantumKernels
