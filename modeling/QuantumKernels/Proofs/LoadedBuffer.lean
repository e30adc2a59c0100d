import Mathlib
import QuantumKernels.Proofs.Histogram
import QuantumKernels.Proofs.Outcome
import QuantumKernels.Proofs.StoredBuffer

/-!
# What a loaded buffer holds

The outcomes and the counts of a buffer are stored beside each other, and each of the two may be
left out of a document. Loading reads them one by one and compares nothing, so a loaded buffer
counts its outcomes only if its document does.
-/
namespace QuantumKernels

namespace Json

theorem mem_asDictionary {α : Type} {item : Reading α} {nesting : ℕ} {v : Json} {m : Dictionary α}
    (h : asDictionary item nesting v = some m) {e : String × α} (he : e ∈ m.entries) :
    ∃ inner w, item inner w = some e.2 := by
  obtain ⟨fields, inner, l, rfl, hfields, rfl⟩ := asDictionary_eq_some h
  rcases Dictionary.mem_of_mem_insertMany he with hnone | hl
  · cases hnone
  · obtain ⟨field, -, hfield⟩ := exists_mem_of_forall₂ (mapM_eq_some_iff.mp hfields) hl
    obtain ⟨a, hread, rfl⟩ := Option.map_eq_some_iff.mp hfield
    exact ⟨inner, field.2, hread⟩

end Json

namespace Buffer

open Json

def fieldNames : List String := ["name", "size", "measurements", "counts", "extra_info", "children"]

/-- The outcomes that a document gives, none if it leaves them out. -/
def statedOutcomes (v : Json) : List String :=
  ((v.member? fieldNames "measurements").bind (asList asText 1)).getD []

def statedCounts (v : Json) : Dictionary ℕ :=
  ((v.member? fieldNames "counts").bind (asDictionary asWord 1)).getD ∅

def statedChildren (v : Json) : List Json :=
  match v.member? fieldNames "children" with
  | some (.list items) => items
  | _ => []

theorem sizeOf_lt_of_mem_statedChildren {v w : Json} (h : w ∈ statedChildren v) : sizeOf w < sizeOf v := by
  unfold statedChildren at h
  split at h
  · rename_i items hitems
    have hlist := sizeOf_member?_lt hitems
    have hmem := List.sizeOf_lt_of_mem h
    simp only [list.sizeOf_spec] at hlist
    omega
  · cases h

/-- The document of a buffer and those of all buffers below it. -/
def documents (v : Json) : List Json := v :: (statedChildren v).attach.flatMap fun c => documents c.1
termination_by sizeOf v
decreasing_by exact sizeOf_lt_of_mem_statedChildren c.2

theorem documents_eq (v : Json) : documents v = v :: (statedChildren v).flatMap documents := by
  rw [documents, List.flatMap_subtype fun _ _ => rfl, List.unattach_attach]

/-- A buffer that has the outcomes and the counts of a document, and numbers that fit a machine word. -/
structure Holds (v : Json) (b : Buffer) : Prop where
  measurements : b.measurements = statedOutcomes v
  counts : b.counts = statedCounts v
  size : b.size ≤ wordLimit
  words : ∀ e ∈ b.counts.entries, e.2 ≤ wordLimit

theorem holds_of_readingTo {depth nesting : ℕ} {v : Json} {b : Buffer} (h : readingTo (depth + 1) nesting v = some b) :
    Holds v b ∧ ∃ inner, List.Forall₂ (fun d c => readingTo depth inner d = some c) (statedChildren v) b.children := by
  obtain ⟨f, hbody, hvalue⟩ := asRecord_eq_some h
  simp only [Option.bind_eq_bind, Option.bind_eq_some_iff, Option.pure_def, Option.some.injEq] at hbody
  obtain ⟨name, hname, size, hsize, measurements, hmeasurements, counts, hcounts, info, hinfo, children,
    hchildren, rfl⟩ := hbody
  have houtcomes : measurements = statedOutcomes v := by
    rw [statedOutcomes, fieldNames, ← hvalue]
    rcases orElse_eq_some hmeasurements with ⟨w, hw, hread⟩ | ⟨hw, rfl⟩
    · rw [hw, Option.bind_some, asList_eq_some_of_atoms asText_nesting hread]
      rfl
    · rw [hw]
      rfl
  have hhistogram : counts = statedCounts v ∧ ∀ e ∈ counts.entries, e.2 ≤ wordLimit := by
    rw [statedCounts, fieldNames, ← hvalue]
    rcases orElse_eq_some hcounts with ⟨w, hw, hread⟩ | ⟨hw, rfl⟩
    · rw [hw, Option.bind_some, asDictionary_eq_some_of_atoms asWord_nesting hread]
      refine ⟨rfl, fun e he => ?_⟩
      obtain ⟨inner, field, hfield⟩ := mem_asDictionary hread he
      exact le_of_asWord hfield
    · rw [hw]
      exact ⟨rfl, nofun⟩
  have hbelow : ∃ inner, List.Forall₂ (fun d c => readingTo depth inner d = some c) (statedChildren v) children := by
    rw [statedChildren, fieldNames, ← hvalue]
    rcases orElse_eq_some hchildren with ⟨w, hw, hread⟩ | ⟨hw, rfl⟩
    · obtain ⟨items, inner, rfl, hitems⟩ := asList_eq_some hread
      rw [hw]
      exact ⟨inner, mapM_eq_some_iff.mp hitems⟩
    · rw [hw]
      exact ⟨0, .nil⟩
  obtain ⟨word, -, hword⟩ := Fields.required_eq_some hsize
  exact ⟨⟨houtcomes, hhistogram.1, le_of_asWord hword, hhistogram.2⟩, hbelow⟩

theorem holds_family {depth nesting : ℕ} {v : Json} {b : Buffer} (h : readingTo depth nesting v = some b) :
    List.Forall₂ Holds (documents v) b.family := by
  induction depth generalizing nesting v b with
  | zero => cases h
  | succ depth ih =>
    obtain ⟨hholds, inner, hchildren⟩ := holds_of_readingTo h
    rw [documents_eq]
    obtain ⟨name, size, measurements, counts, info, children⟩ := b
    rw [family, familyOf_eq]
    exact .cons hholds (List.rel_flatMap hchildren fun d c hread => ih hread)

/-- The document has each outcome counted as often as it lists it. -/
def StatesHistogram (v : Json) : Prop :=
  ∀ bits, (statedCounts v).get? bits =
    if bits ∈ statedOutcomes v then some ((statedOutcomes v).count bits) else none

theorem Holds.counted_iff {v : Json} {b : Buffer} (h : Holds v b) : b.Counted ↔ StatesHistogram v := by
  rw [Counted, StatesHistogram, h.measurements, h.counts]

/-- Whatever a buffer counts, an empty one that takes it over counts its outcomes. -/
theorem shots_merge_new (name : String) (size : ℕ) (b : Buffer) :
    ((Buffer.new name size).merge b).shots = Word.wrap b.measurements.length ∧
      ((Buffer.new name size).absorb b).shots = Word.wrap b.measurements.length := by
  have hmerge : ((Buffer.new name size).merge b).shots = Word.wrap b.measurements.length := by
    rw [shots, wordTotal, total_merge]
    exact congrArg Word.wrap (Nat.zero_add _)
  exact ⟨hmerge, hmerge⟩

/-- A loaded buffer and all below it have the outcomes and the counts that their documents state. So the
counts are the histogram of the outcomes exactly if each document states them so, and a buffer that is
taken over into an empty one keeps its shots exactly if its document states as many outcomes, added up
as words are. Stored once more, the buffer is loaded as it is, as far as documents are read and reals
read back. -/
theorem loaded_counted_iff {s : String} {b : Buffer} (h : load? s = some b) :
    ∃ v, Json.read s = some v ∧ List.Forall₂ Holds (documents v) b.family ∧
      ((∀ c ∈ b.family, c.Counted) ↔ ∀ d ∈ documents v, StatesHistogram d) ∧
      ((∀ c ∈ b.family, ∀ name size, ((Buffer.new name size).merge c).shots = c.shots ∧
          ((Buffer.new name size).absorb c).shots = c.shots) ↔
        ∀ d ∈ documents v, wordTotal (statedCounts d) = Word.wrap (statedOutcomes d).length) ∧
      ((∀ x ∈ b.realsOf, x.isFinite = true → ReadsBack x) → b.toJson.depth ≤ nestingLimit →
        load? b.persist = some b) := by
  obtain ⟨v, hread, hv⟩ := Option.bind_eq_some_iff.mp h
  have hfamily := holds_family hv
  have hstorable : b.Storable := by
    constructor
    · intro c hc
      obtain ⟨d, -, hholds⟩ := exists_mem_of_forall₂ hfamily hc
      exact hholds.size
    · intro c hc
      obtain ⟨d, -, hholds⟩ := exists_mem_of_forall₂ hfamily hc
      exact hholds.words
  refine ⟨v, hread, hfamily, ?_, ?_, fun hreals hdepth => ?_⟩
  · exact (forall_mem_iff_of_forall₂ (hfamily.imp fun d c hholds => hholds.counted_iff.symm)).symm
  · refine (forall_mem_iff_of_forall₂ (hfamily.imp fun d c hholds => ?_)).symm
    have hshots : c.shots = wordTotal (statedCounts d) := congrArg wordTotal hholds.counts
    rw [← hholds.measurements, ← hshots]
    constructor
    · intro hlength name size
      obtain ⟨hmerge, habsorb⟩ := shots_merge_new name size c
      exact ⟨hmerge.trans hlength.symm, habsorb.trans hlength.symm⟩
    · intro hkept
      exact (hkept "" 0).1.symm.trans (shots_merge_new "" 0 c).1
  · rw [load?, persist, readAs, read_pretty (legible_toJson hstorable hreals), Option.bind_some]
    exact ((recovers_toJson hstorable (le_refl nestingLimit)).iff b).mpr ⟨hdepth, rfl⟩

/-- Five shots of which no outcome is listed. -/
def unlistedDocument : Json :=
  .record [("name", .text "q"), ("size", .int 1), ("counts", .record [("0", .int 5)])]

theorem loaded_counted_iff_unlistedDocument : ∃ b, load? unlistedDocument.compact = some b ∧ ¬ b.Counted ∧
    b.shots = 5 ∧ ((Buffer.new "r" 1).merge b).shots = 0 := by
  have hlegible : Legible unlistedDocument := by
    have hcounts : Legible (.record [("0", .int 5)]) := .record (by simpa using .int (by decide) (by decide))
    have hsize : Legible (.int 1) := .int (by decide) (by decide)
    exact .record (by simp [Legible.text, hsize, hcounts])
  have hread : Json.read unlistedDocument.compact = some unlistedDocument := read_compact hlegible
  have hload : load? unlistedDocument.compact = some { name := "q", size := 1, counts := ⟨[("0", 5)], by decide⟩ } := by
    rw [load?, readAs, hread]
    rfl
  obtain ⟨v, hv, -, hcounted, -⟩ := loaded_counted_iff hload
  obtain rfl : unlistedDocument = v := Option.some.inj (hread.symm.trans hv)
  refine ⟨_, hload, fun hb => ?_, rfl, rfl⟩
  have hstated := hcounted.mp (by simpa [family, family.familyOf] using hb) unlistedDocument
    (by simp [documents_eq unlistedDocument])
  have hzero : (statedCounts unlistedDocument).get? "0" = none := hstated "0"
  cases hzero

end Buffer

end QuantumKernels
