import QuantumKernels.Proofs.Json.Reread
import QuantumKernels.Proofs.Stored

/-!
# Kernels that load back

Reals are the only parts of a kernel that may not be read from what is written for them. So a stored
kernel is loaded exactly if its reals are finite and its document is nested no deeper than documents
are read.
-/
namespace QuantumKernels

open Json

namespace Parameter

/-- All reals of a parameter are finite. -/
def AllFinite (p : Parameter) : Prop := ∀ x ∈ p.reals, x.isFinite

theorem worded_toJson (p : Parameter) : Worded p.toJson := by
  cases p <;> exact .record (by simp [Worded.text, Worded.real, Worded.list, worded_int64])

theorem accepts_toJson (p : Parameter) (nesting : ℕ) :
    Accepts Parameter.reading nesting p.toJson p.AllFinite := by
  cases p with
  | int n =>
    have hint (m : ℕ) : Accepts asInt64 m (.int n.toInt) True :=
      (recovers_atom rfl (asInt64_toInt m n)).accepts rfl
    exact (accepts_tagged rfl fun m _ => (hint m).map int).congr (by simp [AllFinite, reals])
  | real x => exact (accepts_tagged rfl fun m _ => (accepts_real m x).map real).congr (by simp [AllFinite, reals])
  | text s =>
    have htext (m : ℕ) := (recovers_text m s).accepts rfl
    exact (accepts_tagged rfl fun m _ => (htext m).map text).congr (by simp [AllFinite, reals])
  | complex re im =>
    have hpair (m : ℕ) : Accepts (asPair asReal asReal) m (.list [.real re, .real im]) (re.isFinite ∧ im.isFinite) :=
      accepts_pair (fun n _ => accepts_real n re) fun n _ => accepts_real n im
    exact (accepts_tagged rfl fun m _ => (hpair m).map fun z => complex z.1 z.2).congr (by simp [AllFinite, reals])

end Parameter

namespace Operation

def AllFinite (op : Operation) : Prop := ∀ p ∈ op.parameters, p.AllFinite

theorem worded_toJson {op : Operation} (h : ∀ q ∈ op.bits, q ≤ wordLimit) : Worded op.toJson := by
  have hbits : Worded (naturals op.bits) := worded_listOf fun q hq => worded_ofNat (h q hq)
  have hparameters : Worded (listOf Parameter.toJson op.parameters) :=
    worded_listOf fun p _ => p.worded_toJson
  exact .record (by simp [Worded.text, Worded.bool, hbits, hparameters])

theorem accepts_toJson {op : Operation} (h : ∀ q ∈ op.bits, q ≤ wordLimit) (nesting : ℕ) :
    Accepts Operation.reading nesting op.toJson op.AllFinite := by
  cases nesting with
  | zero => simp [Accepts, Operation.reading, toJson, asRecord, depth_record_ne_zero]
  | succ nesting =>
    have hbits := (accepts_naturals h nesting).iff
    have hlist : Accepts (asList Parameter.reading) nesting (listOf Parameter.toJson op.parameters)
        op.AllFinite := accepts_listOf fun n _ p _ => p.accepts_toJson n
    have hparameters := hlist.iff
    simp only [Accepts, Operation.reading, Operation.toJson, depth_record_le_succ]
    simp [asRecord, Fields.required, Fields.orElse, asText, asBool, Option.bind_eq_some_iff, hbits,
      hparameters, and_assoc]

end Operation

theorem Header.worded_toJson {h : Header} {body : Json} (hbits : ∀ q ∈ h.bitMap, q ≤ wordLimit)
    (hbody : Worded body) : Worded (h.toJson body) := by
  have hvars : Worded (texts h.vars) := worded_listOf fun s _ => .text s
  have hbitMap : Worded (naturals h.bitMap) := worded_listOf fun q hq => worded_ofNat (hbits q hq)
  have hoptions : Worded (.record (h.options.map Parameter.toJson).entries) := by
    refine .record fun e he => ?_
    obtain ⟨d, -, rfl⟩ := List.mem_map.mp he
    exact d.2.worded_toJson
  refine .record ?_
  cases h.tag <;> split_ifs <;> simp [Worded.text, Worded.bool, hvars, hbitMap, hoptions, hbody]

theorem Kernel.accepts_toJson {k : Kernel} {item : Reading Instruction} {nesting : ℕ} {p : Prop}
    (hbits : ∀ q ∈ k.header.bitMap, q ≤ wordLimit)
    (hbody : ∀ n < nesting, Accepts (asList item) n (.list (Instruction.toJson.toJsonOf k.body)) p) :
    Accepts (Kernel.readingWith item) nesting k.toJson
      ((∀ e ∈ k.header.options.entries, e.2.AllFinite) ∧ p) := by
  obtain ⟨⟨name, tag, kind, vars, bitMap, options, enabled⟩, body⟩ := k
  cases nesting with
  | zero => simp [Accepts, Kernel.readingWith, Kernel.toJson, Header.toJson, asRecord, depth_record_ne_zero]
  | succ nesting =>
    have hkind : ∃ a, Kind.reading nesting (.text kind.keyword) = some a :=
      ⟨kind, (kind.recovers_keyword nesting kind).mpr ⟨Nat.zero_le _, rfl⟩⟩
    have hinstructions := (hbody nesting (Nat.lt_succ_self nesting)).iff
    have hvars := (accepts_texts vars nesting).iff
    have hbitMap := (accepts_naturals hbits nesting).iff
    have hmap : Accepts (asDictionary Parameter.reading) nesting (.record (options.map Parameter.toJson).entries)
        (∀ e ∈ options.entries, e.2.AllFinite) :=
      accepts_dictionary (q := Parameter.AllFinite) fun n _ e _ => e.2.accepts_toJson n
    have hoptions := hmap.iff
    have hnone : (∅ : Dictionary Parameter).isEmpty = true := rfl
    have hentries : (∅ : Dictionary Parameter).entries = [] := rfl
    have hempty : options = ∅ ∨ options.isEmpty = false := by
      cases h : options.isEmpty with
      | true => exact .inl (Dictionary.eq_empty_of_isEmpty h)
      | false => exact .inr rfl
    -- each of the three fields that are left out when empty is there or not
    simp only [Accepts, Kernel.readingWith, Kernel.toJson, Header.toJson, reread_record, depth_record_le_succ]
    cases tag <;> cases bitMap <;> rcases hempty with rfl | hfilled <;>
      simp [-reread_list, -reread_record, asRecord, Fields.required, Fields.orElse, asText, asBool, asOption,
        Option.bind_eq_some_iff, *] <;>
      simp only [and_assoc, and_left_comm]

namespace Instruction

/-- All reals at and below an instruction are finite. -/
def AllFinite (i : Instruction) : Prop := ∀ j ∈ i.preorder, ∀ x ∈ j.ownReals, x.isFinite

/-- All bits at and below an instruction are machine words. -/
def AllWords (i : Instruction) : Prop := ∀ j ∈ i.preorder, ∀ q ∈ j.ownBits, q ≤ wordLimit

theorem allFinite_leaf {op : Operation} : (leaf op).AllFinite ↔ op.AllFinite := by
  simp only [AllFinite, preorder, List.forall_mem_singleton, ownReals, List.mem_flatMap, forall_exists_index,
    and_imp, Operation.AllFinite, Parameter.AllFinite]
  exact ⟨fun h p hp x hx => h x p hp hx, fun h x p hp hx => h p hp x hx⟩

theorem allFinite_block {h : Header} {body : List Instruction} :
    (block h body).AllFinite ↔ (∀ e ∈ h.options.entries, e.2.AllFinite) ∧ ∀ i ∈ body, i.AllFinite := by
  simp only [AllFinite, forall_mem_preorder_block, ownReals, List.mem_flatMap, forall_exists_index, and_imp,
    Parameter.AllFinite]
  exact and_congr_left fun _ => ⟨fun h e he x hx => h x e he hx, fun h x e he hx => h e he x hx⟩

theorem allWords_leaf {op : Operation} : (leaf op).AllWords ↔ ∀ q ∈ op.bits, q ≤ wordLimit := by
  simp only [AllWords, preorder, List.forall_mem_singleton, ownBits]

theorem allWords_block {h : Header} {body : List Instruction} :
    (block h body).AllWords ↔ (∀ q ∈ h.bitMap, q ≤ wordLimit) ∧ ∀ i ∈ body, i.AllWords := by
  simp only [AllWords, forall_mem_preorder_block, ownBits]

theorem AllWords.worded_toJson {i : Instruction} (h : i.AllWords) : Worded i.toJson := by
  induction i using tree_induction with
  | leaf op =>
    have hop := Operation.worded_toJson (allWords_leaf.mp h)
    exact .record (by simpa using hop)
  | block hd body ih =>
    obtain ⟨hbits, hinside⟩ := allWords_block.mp h
    have hbody : Worded (listOf toJson body) := worded_listOf fun i hi => ih i hi (hinside i hi)
    rw [listOf, ← toJsonOf_eq] at hbody
    have hblock := Header.worded_toJson hbits hbody
    exact .record (by simpa using hblock)

theorem accepts_body {body : List Instruction} {bound nesting : ℕ} {p : Instruction → Prop}
    (h : ∀ n < nesting, ∀ i ∈ body, Accepts (readingTo bound) n i.toJson (p i)) :
    Accepts (asList (readingTo bound)) nesting (.list (toJson.toJsonOf body)) (∀ i ∈ body, p i) := by
  rw [toJsonOf_eq]
  exact accepts_listOf h

theorem accepts_none (i : Instruction) {nesting : ℕ} (h : nesting = 0) (p : Prop) :
    Accepts (readingTo 0) nesting i.toJson p := by
  cases i <;> simp [Accepts, readingTo, toJson, h, depth_record_ne_zero]

theorem AllWords.accepts_toJson {i : Instruction} (h : i.AllWords) {bound nesting : ℕ} (hbound : nesting ≤ bound) :
    Accepts (readingTo bound) nesting i.toJson i.AllFinite := by
  -- as with what is recovered, the bound on the blocks never decides
  induction i using tree_induction generalizing bound nesting with
  | leaf op =>
    cases bound with
    | zero => exact accepts_none (leaf op) (by omega) _
    | succ bound =>
      have hop (n : ℕ) := (Operation.accepts_toJson (allWords_leaf.mp h) n).congr allFinite_leaf.symm
      exact accepts_variant rfl fun n _ => (hop n).map leaf
  | block hd body ih =>
    cases bound with
    | zero => exact accepts_none (block hd body) (by omega) _
    | succ bound =>
      obtain ⟨hbits, hinside⟩ := allWords_block.mp h
      have hbody : ∀ n < nesting, ∀ m < n, Accepts (asList (readingTo bound)) m
          (.list (toJson.toJsonOf body)) (∀ i ∈ body, i.AllFinite) :=
        fun n hn m hm => accepts_body fun l hl i hi => ih i hi (hinside i hi) (by omega)
      have hkernel : ∀ n < nesting, Accepts (Kernel.readingWith (readingTo bound)) n
          (Kernel.toJson ⟨hd, body⟩) (block hd body).AllFinite :=
        fun n hn => (Kernel.accepts_toJson hbits (hbody n hn)).congr allFinite_block.symm
      exact accepts_variant rfl fun n hn => (hkernel n hn).map ofKernel

end Instruction

namespace Kernel

theorem allFinite_ofKernel {k : Kernel} : (Instruction.ofKernel k).AllFinite ↔ ∀ x ∈ k.reals, x.isFinite := by
  simp only [Instruction.AllFinite, reals, List.mem_flatMap, forall_exists_index, and_imp]
  exact ⟨fun h x j hj hx => h j hj x hx, fun h j hj x hx => h x j hj hx⟩

theorem allWords_ofKernel {k : Kernel} : (Instruction.ofKernel k).AllWords ↔ ∀ q ∈ k.allBits, q ≤ wordLimit := by
  simp only [Instruction.AllWords, allBits, List.mem_flatMap, forall_exists_index, and_imp]
  exact ⟨fun h q j hj hq => h j hj q hq, fun h j hj q hq => h q j hj hq⟩

theorem worded_toJson {k : Kernel} (h : (Instruction.ofKernel k).AllWords) : Worded k.toJson := by
  cases h.worded_toJson with
  | record h => exact h ("Composite", k.toJson) (List.mem_singleton_self _)

theorem accepts_reading {k : Kernel} (h : (Instruction.ofKernel k).AllWords) :
    Accepts Kernel.reading nestingLimit k.toJson (Instruction.ofKernel k).AllFinite := by
  obtain ⟨hbits, hinside⟩ := Instruction.allWords_block.mp h
  have hbody : ∀ n < nestingLimit, Accepts (asList Instruction.reading) n
      (.list (Instruction.toJson.toJsonOf k.body)) (∀ i ∈ k.body, i.AllFinite) :=
    fun n hn => Instruction.accepts_body fun m hm i hi => (hinside i hi).accepts_toJson (by omega)
  exact (accepts_toJson hbits hbody).congr Instruction.allFinite_block.symm

/-- A kernel of machine words is loaded from what is stored of it exactly if its reals are finite and
its document is not nested too deep. -/
theorem exists_load_iff {k : Kernel} (hwords : ∀ q ∈ k.allBits, q ≤ wordLimit) :
    (∃ loaded, load k.persist = .ok loaded) ↔ k.toJson.depth ≤ nestingLimit ∧ ∀ x ∈ k.reals, x.isFinite := by
  have hall := allWords_ofKernel.mpr hwords
  rw [← allFinite_ofKernel, ← exists_readAs_pretty (worded_toJson hall) (accepts_reading hall)]
  change _ ↔ ∃ a, readAs reading k.persist = some a
  rw [load]
  cases readAs reading k.persist <;> simp

end Kernel

end QuantumKernels
