import QuantumKernels.Program
import QuantumKernels.Proofs.Json.Lines
import QuantumKernels.Proofs.Json.Nesting
import QuantumKernels.Proofs.Tree

/-!
# Kernels and programs from their stored form

A stored kernel loads back exactly if its document is nested no deeper than documents are read.
The bits have to be machine words, and the reals to read back as they are written.
-/
namespace QuantumKernels

open Json

def Parameter.reals : Parameter → List Float
  | real x => [x]
  | complex re im => [re, im]
  | _ => []

/-- The reals of an operation, or those among the options of a block. -/
def Instruction.ownReals : Instruction → List Float
  | leaf op => op.parameters.flatMap Parameter.reals
  | block h _ => h.options.entries.flatMap fun e => e.2.reals

/-- The bits of an operation, or those in the bit map of a block. -/
def Instruction.ownBits : Instruction → List ℕ
  | leaf op => op.bits
  | block h _ => h.bitMap

/-- All reals in a kernel, those of its own options included. -/
def Kernel.reals (k : Kernel) : List Float :=
  (Instruction.ofKernel k).preorder.flatMap Instruction.ownReals

/-- All bits in a kernel, those of bit maps included. -/
def Kernel.allBits (k : Kernel) : List ℕ :=
  (Instruction.ofKernel k).preorder.flatMap Instruction.ownBits

namespace Parameter

theorem recovers_toJson (p : Parameter) (nesting : ℕ) :
    Recovers Parameter.reading nesting p.toJson p := by
  cases p with
  | int n => exact recovers_tagged rfl fun m _ => (recovers_atom rfl (asInt64_toInt m n)).map int
  | real x => exact recovers_tagged rfl fun m _ => (recovers_atom rfl (asReal_real m x)).map real
  | text s => exact recovers_tagged rfl fun m _ => (recovers_text m s).map text
  | complex re im =>
    have hpart : ∀ (n : ℕ) (x : Float), Recovers asReal n (.real x) x :=
      fun n x => recovers_atom rfl (asReal_real n x)
    exact recovers_tagged rfl fun m _ =>
      (recovers_pair (fun n _ => hpart n re) fun n _ => hpart n im).map fun z => complex z.1 z.2

theorem legible_toJson {p : Parameter} (h : ∀ x ∈ p.reals, ReadsBack x) : Legible p.toJson := by
  cases p with
  | int n =>
    exact .record (by simp [Legible.text, legible_int64 n])
  | real x =>
    have hreal : Legible (.real x) := .real (h x (by simp [reals]))
    exact .record (by simp [Legible.text, hreal])
  | text s => exact .record (by simp [Legible.text])
  | complex re im =>
    have hre : Legible (.real re) := .real (h re (by simp [reals]))
    have him : Legible (.real im) := .real (h im (by simp [reals]))
    have hlist : Legible (.list [.real re, .real im]) := .list (by simp [hre, him])
    exact .record (by simp [Legible.text, hlist])

end Parameter

namespace Operation

theorem recovers_toJson {op : Operation} (h : ∀ q ∈ op.bits, q ≤ wordLimit) (nesting : ℕ) :
    Recovers Operation.reading nesting op.toJson op := by
  intro b
  cases nesting with
  | zero => simp [Operation.reading, toJson, asRecord, depth_record_ne_zero]
  | succ nesting =>
    have hbits := (recovers_naturals h nesting).iff
    have hlist : Recovers (asList Parameter.reading) nesting (listOf Parameter.toJson op.parameters)
        op.parameters := recovers_listOf fun n _ p _ => p.recovers_toJson n
    have hparameters := hlist.iff
    simp only [Operation.reading, Operation.toJson, depth_record_le_succ]
    simp [asRecord, Fields.required, Fields.orElse, asText, asBool, Option.bind_eq_some_iff, hbits,
      hparameters, and_assoc]

end Operation

theorem Kind.recovers_keyword (kind : Kind) (nesting : ℕ) :
    Recovers Kind.reading nesting (.text kind.keyword) kind := by
  cases kind <;> exact recovers_atom rfl rfl

theorem Kernel.recovers_toJson {k : Kernel} {item : Reading Instruction} {nesting : ℕ}
    (hbits : ∀ q ∈ k.header.bitMap, q ≤ wordLimit)
    (hbody : ∀ n < nesting, Recovers (asList item) n (.list (Instruction.toJson.toJsonOf k.body)) k.body) :
    Recovers (Kernel.readingWith item) nesting k.toJson k := by
  intro k'
  obtain ⟨⟨name, tag, kind, vars, bitMap, options, enabled⟩, body⟩ := k
  cases nesting with
  | zero => simp [Kernel.readingWith, Kernel.toJson, Header.toJson, asRecord, depth_record_ne_zero]
  | succ nesting =>
    have hkind := (kind.recovers_keyword nesting).iff
    have hinstructions := (hbody nesting (Nat.lt_succ_self nesting)).iff
    have hvars := (recovers_texts vars nesting).iff
    have hbitMap := (recovers_naturals hbits nesting).iff
    have hmap : Recovers (asDictionary Parameter.reading) nesting
        (.record (options.map Parameter.toJson).entries) options :=
      recovers_dictionary fun n _ e _ => e.2.recovers_toJson n
    have hoptions := hmap.iff
    have hnone : (∅ : Dictionary Parameter).isEmpty = true := rfl
    have hempty : options = ∅ ∨ options.isEmpty = false := by
      cases h : options.isEmpty with
      | true => exact .inl (Dictionary.eq_empty_of_isEmpty h)
      | false => exact .inr rfl
    -- each of the three fields that are left out when empty is there or not
    simp only [Kernel.readingWith, Kernel.toJson, Header.toJson, depth_record_le_succ]
    cases tag <;> cases bitMap <;> rcases hempty with rfl | hfilled <;>
      simp [asRecord, Fields.required, Fields.orElse, asText, asBool, asOption,
        Option.bind_eq_some_iff, *] <;>
      tauto

namespace Instruction

theorem toJsonOf_eq (body : List Instruction) : toJson.toJsonOf body = body.map toJson := by
  induction body with
  | nil => rfl
  | cons i rest ih => simp [toJson.toJsonOf, ih]

/-- The numbers at and below an instruction have a written form that reads back. -/
structure Writable (i : Instruction) : Prop where
  bits : ∀ j ∈ i.preorder, ∀ q ∈ j.ownBits, q ≤ wordLimit
  reals : ∀ j ∈ i.preorder, ∀ x ∈ j.ownReals, ReadsBack x

theorem Writable.inside {h : Header} {body : List Instruction} (hw : (block h body).Writable)
    {i : Instruction} (hi : i ∈ body) : i.Writable :=
  ⟨fun j hj => hw.bits j (mem_preorder_block hi hj), fun j hj => hw.reals j (mem_preorder_block hi hj)⟩

theorem Writable.ownBits {i : Instruction} (hw : i.Writable) : ∀ q ∈ i.ownBits, q ≤ wordLimit :=
  hw.bits i i.mem_preorder_self

theorem Writable.ownReals {i : Instruction} (hw : i.Writable) : ∀ x ∈ i.ownReals, ReadsBack x :=
  hw.reals i i.mem_preorder_self

theorem recovers_body {body : List Instruction} {bound nesting : ℕ}
    (h : ∀ n < nesting, ∀ i ∈ body, Recovers (readingTo bound) n i.toJson i) :
    Recovers (asList (readingTo bound)) nesting (.list (toJson.toJsonOf body)) body := by
  rw [toJsonOf_eq]
  exact recovers_listOf h

theorem recovers_none (i : Instruction) {nesting : ℕ} (h : nesting = 0) :
    Recovers (readingTo 0) nesting i.toJson i := by
  intro j
  cases i <;> simp [readingTo, toJson, h, depth_record_ne_zero]

theorem recovers_toJson {i : Instruction} (hw : i.Writable) {bound nesting : ℕ}
    (hbound : nesting ≤ bound) : Recovers (readingTo bound) nesting i.toJson i := by
  -- each block enters lists and records of its own, so the bound on the blocks never decides
  induction i using tree_induction generalizing bound nesting with
  | leaf op =>
    cases bound with
    | zero => exact recovers_none (leaf op) (by omega)
    | succ bound =>
      exact recovers_variant rfl fun n _ => (Operation.recovers_toJson hw.ownBits n).map leaf
  | block h body ih =>
    cases bound with
    | zero => exact recovers_none (block h body) (by omega)
    | succ bound =>
      have hbody : ∀ n < nesting, ∀ m < n, Recovers (asList (readingTo bound)) m
          (.list (toJson.toJsonOf body)) body :=
        fun n hn m hm => recovers_body fun l hl i hi => ih i hi (hw.inside hi) (by omega)
      have hkernel : ∀ n < nesting, Recovers (Kernel.readingWith (readingTo bound)) n
          (Kernel.toJson ⟨h, body⟩) ⟨h, body⟩ :=
        fun n hn => Kernel.recovers_toJson hw.ownBits (hbody n hn)
      exact recovers_variant rfl fun n hn => (hkernel n hn).map ofKernel

end Instruction

theorem Operation.legible_toJson {op : Operation} (hbits : ∀ q ∈ op.bits, q ≤ wordLimit)
    (hreals : ∀ x ∈ op.parameters.flatMap Parameter.reals, ReadsBack x) : Legible op.toJson := by
  have hb : Legible (naturals op.bits) := legible_listOf fun q hq => legible_ofNat (hbits q hq)
  have hp : Legible (listOf Parameter.toJson op.parameters) :=
    legible_listOf fun p hp => p.legible_toJson fun x hx =>
      hreals x (List.mem_flatMap.mpr ⟨p, hp, hx⟩)
  refine .record ?_
  simp [Legible.text, Legible.bool, hb, hp]

theorem Header.legible_toJson {h : Header} {body : Json} (hbits : ∀ q ∈ h.bitMap, q ≤ wordLimit)
    (hreals : ∀ x ∈ h.options.entries.flatMap fun e => e.2.reals, ReadsBack x) (hbody : Legible body) :
    Legible (h.toJson body) := by
  have hvars : Legible (texts h.vars) := legible_listOf fun s _ => .text s
  have hbitMap : Legible (naturals h.bitMap) := legible_listOf fun q hq => legible_ofNat (hbits q hq)
  have hoptions : Legible (.record (h.options.map Parameter.toJson).entries) := by
    refine .record fun e he => ?_
    obtain ⟨d, hd, rfl⟩ := List.mem_map.mp he
    exact d.2.legible_toJson fun x hx => hreals x (List.mem_flatMap.mpr ⟨d, hd, hx⟩)
  refine .record ?_
  cases h.tag <;> split_ifs <;> simp [Legible.text, Legible.bool, hvars, hbitMap, hoptions, hbody]

theorem Instruction.Writable.legible {i : Instruction} (hw : i.Writable) : Legible i.toJson := by
  induction i using tree_induction with
  | leaf op =>
    have hop := Operation.legible_toJson hw.ownBits hw.ownReals
    exact .record (by simpa using hop)
  | block h body ih =>
    have hbody : Legible (listOf toJson body) := legible_listOf fun i hi => ih i hi (hw.inside hi)
    rw [listOf, ← toJsonOf_eq] at hbody
    have hblock := Header.legible_toJson hw.ownBits hw.ownReals hbody
    exact .record (by simpa using hblock)

namespace Kernel

/-- The bits of a kernel are machine words and its reals are finite. -/
structure Storable (k : Kernel) : Prop where
  words : ∀ q ∈ k.allBits, q ≤ wordLimit
  finite : ∀ x ∈ k.reals, x.isFinite

theorem Storable.writable {k : Kernel} (h : k.Storable)
    (hreals : ∀ x ∈ k.reals, x.isFinite → Json.ReadsBack x) : (Instruction.ofKernel k).Writable where
  bits := fun j hj q hq => h.words q (List.mem_flatMap.mpr ⟨j, hj, hq⟩)
  reals := fun j hj x hx => by
    have hx' : x ∈ k.reals := List.mem_flatMap.mpr ⟨j, hj, hx⟩
    exact hreals x hx' (h.finite x hx')

theorem recovers_reading {k : Kernel} (hw : (Instruction.ofKernel k).Writable) {nesting : ℕ}
    (hnesting : nesting ≤ nestingLimit) : Recovers Kernel.reading nesting k.toJson k :=
  recovers_toJson hw.ownBits fun n hn => Instruction.recovers_body fun m hm i hi =>
    Instruction.recovers_toJson (hw.inside hi) (by omega)

theorem legible_toJson {k : Kernel} (hw : (Instruction.ofKernel k).Writable) : Legible k.toJson := by
  cases hw.legible with
  | record h => exact h ("Composite", k.toJson) (List.mem_singleton_self _)

end Kernel

namespace Program

theorem recovers_toJson {p : Program} (hw : ∀ k ∈ p.kernels, (Instruction.ofKernel k).Writable)
    {nesting : ℕ} (hnesting : nesting ≤ nestingLimit) :
    Recovers Program.reading nesting p.toJson p := by
  intro q
  cases nesting with
  | zero => simp [Program.reading, toJson, asRecord, depth_record_ne_zero]
  | succ nesting =>
    have hlist : Recovers (asList Kernel.reading) nesting (listOf Kernel.toJson p.kernels) p.kernels :=
      recovers_listOf fun n hn k hk => Kernel.recovers_reading (hw k hk) (by omega)
    have hkernels := hlist.iff
    simp [Program.reading, toJson, asRecord, Fields.required, Option.bind_eq_some_iff, hkernels,
      depth_record_le_succ]

theorem legible_toJson {p : Program} (hw : ∀ k ∈ p.kernels, (Instruction.ofKernel k).Writable) :
    Legible p.toJson := by
  have hkernels : Legible (listOf Kernel.toJson p.kernels) :=
    legible_listOf fun k hk => Kernel.legible_toJson (hw k hk)
  exact .record (by simpa using hkernels)

end Program

/-- What is stored is loaded back, for kernels and for programs, exactly if its document stays above
the 128th level of nesting, where reading stops. That the finite reals in it are read as they are
written is assumed. -/
theorem load_persist :
    (∀ k : Kernel, k.Storable → (∀ x ∈ k.reals, x.isFinite → ReadsBack x) →
      Kernel.load k.persist =
        if k.toJson.depth ≤ nestingLimit then .ok k else .error .malformed) ∧
    ∀ p : Program, (∀ k ∈ p.kernels, k.Storable) →
      (∀ k ∈ p.kernels, ∀ x ∈ k.reals, x.isFinite → ReadsBack x) →
        Program.load p.persist =
          if p.toJson.depth ≤ nestingLimit then .ok p else .error .malformed := by
  constructor
  · intro k hk hreals
    have hw := hk.writable hreals
    have hread : readAs Kernel.reading k.persist =
        if k.toJson.depth ≤ nestingLimit then some k else none :=
      readAs_pretty (Kernel.legible_toJson hw) (Kernel.recovers_reading hw le_rfl)
    rw [Kernel.load, hread]
    split_ifs <;> rfl
  · intro p hp hreals
    have hw : ∀ k ∈ p.kernels, (Instruction.ofKernel k).Writable :=
      fun k hk => (hp k hk).writable (hreals k hk)
    have hread : readAs Program.reading p.persist =
        if p.toJson.depth ≤ nestingLimit then some p else none :=
      readAs_pretty (Program.legible_toJson hw) (Program.recovers_toJson hw le_rfl)
    rw [Program.load, hread]
    split_ifs <;> rfl

/-- A kernel with escapes in its texts, every kind of parameter and a block without operations. -/
def annotatedKernel : Kernel :=
  ⟨{ name := "k \"\\\n\x01 ψ😀", tag := some "", kind := .anneal, vars := ["θ"],
     bitMap := [wordLimit, 0], enabled := false,
     options := ⟨[("a", .complex 0.5 0.5), ("b", .int Int64.minValue)], by decide⟩ }, [
    .leaf {
      name := "QMI", bits := [3, 3], enabled := false, analog := true,
      parameters := [.int Int64.maxValue, .real 0.5, .text "2*θ", .complex 0.5 0.5] },
    .block { name := "inner" } []]⟩

/-- A kernel inside so many others; each of them takes up three levels of the document. -/
def towerKernel : ℕ → Kernel
  | 0 => .named "k"
  | n + 1 => ⟨{ name := "k" }, [.ofKernel (towerKernel n)]⟩

theorem annotatedKernel_reals : annotatedKernel.reals = [0.5, 0.5, 0.5, 0.5, 0.5] := rfl

theorem annotatedKernel_storable : annotatedKernel.Storable := by
  refine ⟨by decide, ?_⟩
  rw [annotatedKernel_reals]
  decide +kernel

theorem annotatedKernel_readsBack : ∀ x ∈ annotatedKernel.reals, x.isFinite → ReadsBack x := by
  intro x hx _
  obtain rfl : x = 0.5 := by simpa [annotatedKernel_reals] using hx
  exact readsBack_half

theorem load_persist_annotatedKernel :
    Kernel.load annotatedKernel.persist = .ok annotatedKernel ∧
    Kernel.load (towerKernel 41).persist = .ok (towerKernel 41) ∧
    Kernel.load (towerKernel 42).persist = .error .malformed ∧
    Program.load (Program.persist ⟨[annotatedKernel, annotatedKernel]⟩) =
      .ok ⟨[annotatedKernel, annotatedKernel]⟩ := by
  have hannotated := load_persist.1 annotatedKernel annotatedKernel_storable annotatedKernel_readsBack
  have hnested : ∀ n, (towerKernel n).reals = [] → (towerKernel n).allBits = [] →
      Kernel.load (towerKernel n).persist = _ := fun n hreals hbits =>
    load_persist.1 (towerKernel n) ⟨by simp [hbits], by simp [hreals]⟩ (by simp [hreals])
  have hprogram := load_persist.2 ⟨[annotatedKernel, annotatedKernel]⟩
    (by simpa using annotatedKernel_storable) (by simpa using annotatedKernel_readsBack)
  rw [if_pos (by decide)] at hannotated hprogram
  refine ⟨hannotated, ?_, ?_, hprogram⟩
  · rw [hnested 41 rfl rfl, if_pos (by decide +kernel)]
  · rw [hnested 42 rfl rfl, if_neg (by decide +kernel)]

end QuantumKernels
