import QuantumKernels.Kernel.Edit
import QuantumKernels.Proofs.Graph.Dependency
import QuantumKernels.Proofs.Relabel
import Mathlib.Data.Finset.Card
import Mathlib.Data.List.Chain
import Mathlib.Order.Bounds.Basic
import Mathlib.Order.Interval.Finset.Nat

/-!
# The depth of a kernel

The depth is the greatest length of a chain, which is a sequence of operations in program order,
each sharing a bit with the next. It is also the number of layers when every operation is put one
layer after the latest one in use on its bits. That only the edges of the dependency graph enter
into it makes no difference: between two operations that share a bit the ranks rise along the uses
of this bit.
-/
namespace QuantumKernels

def Operation.Shares (a b : Operation) : Prop := ∃ q ∈ a.bits, q ∈ b.bits

/-- The lengths of the chains in a list of operations. -/
def chainLengths (ops : List Operation) : Set ℕ :=
  {n | ∃ l : List Operation, l.Sublist ops ∧ l.IsChain Operation.Shares ∧ l.length = n}

/-- The layer of each operation, given the latest layer in use on each bit. -/
def layersFrom (busy : ℕ → ℕ) : List Operation → List ℕ
  | [] => []
  | op :: rest =>
    let layer := (op.bits.map busy).foldl max 0 + 1
    layer :: layersFrom (fun q => if q ∈ op.bits then layer else busy q) rest

def layers (ops : List Operation) : List ℕ := layersFrom (fun _ => 0) ops

theorem le_foldl_max {n : ℕ} {l : List ℕ} (h : n ∈ l) : n ≤ l.foldl max 0 := by
  rw [List.foldl_max]
  obtain ⟨m, hm⟩ := Option.isSome_iff_exists.mp (List.isSome_max?_of_mem h)
  have hle : n ≤ m := (List.max?_eq_some_iff.mp hm).2 n h
  simp [hm, hle]

theorem foldl_max_mem {l : List ℕ} (h : l.foldl max 0 ≠ 0) : l.foldl max 0 ∈ l := by
  rw [List.foldl_max] at h ⊢
  cases hm : l.max? with
  | none => simp [hm] at h
  | some m => simpa [hm] using (List.max?_eq_some_iff.mp hm).1

namespace DependencyGraph

/-- The length of the longest path that ends at a node. -/
def level (edges : List Edge) (n : ℕ) : ℕ :=
  ((edges.filter fun e => e.target == n).map fun e => (levels edges n).getD e.source 0).foldl max 0 + 1

theorem levels_eq (edges : List Edge) (n : ℕ) : levels edges n = (List.range n).map (level edges) := by
  induction n with
  | zero => rfl
  | succ n ih =>
    rw [List.range_succ, List.map_append, ← ih]
    rfl

theorem levels_getD (edges : List Edge) {i n : ℕ} (h : i < n) :
    (levels edges n).getD i 0 = level edges i := by
  simp [levels_eq, h]

theorem one_le_level (edges : List Edge) (n : ℕ) : 1 ≤ level edges n := Nat.succ_pos _

section Ranks

variable {ops : List Operation}

theorem level_lt_of_edge {e : Edge} (he : e ∈ (ofOperations ops).edges) :
    level (ofOperations ops).edges e.source < level (ofOperations ops).edges e.target := by
  obtain ⟨q, hq⟩ := (exists_edge_iff ops e.source e.target).mp ⟨e, he, rfl, rfl⟩
  have hmem : level (ofOperations ops).edges e.source ∈
      ((ofOperations ops).edges.filter fun d => d.target == e.target).map
        fun d => (levels (ofOperations ops).edges e.target).getD d.source 0 := by
    refine List.mem_map.mpr ⟨e, List.mem_filter.mpr ⟨he, by simp⟩, ?_⟩
    exact levels_getD _ hq.before
  exact Nat.lt_succ_of_le (le_foldl_max hmem)

/-- The longest path to a node that some edge leads to comes along one of these edges. -/
theorem level_eq (ops : List Operation) (j : ℕ) : level (ofOperations ops).edges j = 1 ∨
    ∃ i q, Leads ops i j q ∧
      level (ofOperations ops).edges j = level (ofOperations ops).edges i + 1 := by
  by_cases hzero : (((ofOperations ops).edges.filter fun e => e.target == j).map
      fun e => (levels (ofOperations ops).edges j).getD e.source 0).foldl max 0 = 0
  · exact .inl (by rw [level, hzero])
  · obtain ⟨e, he, hmax⟩ := List.mem_map.mp (foldl_max_mem hzero)
    obtain ⟨he, htarget⟩ := List.mem_filter.mp he
    have htarget : e.target = j := by simpa using htarget
    obtain ⟨q, hq⟩ := (exists_edge_iff ops e.source j).mp ⟨e, he, rfl, htarget⟩
    rw [levels_getD _ hq.before] at hmax
    exact .inr ⟨e.source, q, hq, by rw [hmax]; rfl⟩

/-- Between two uses of a bit the level rises, next to each other or not. -/
theorem level_lt {i j q : ℕ} (hij : i < j) (hi : Uses ops i q) (hj : Uses ops j q) :
    level (ofOperations ops).edges i < level (ofOperations ops).edges j := by
  -- the bit leads to the later use from one that is not before the earlier use
  induction j using Nat.strong_induction_on with
  | _ j ih =>
    have hlatest : ∃ m, i ≤ m ∧ Leads ops m j q := by
      classical
      have hfound := Nat.findGreatest_spec (P := fun m => m < j ∧ Uses ops m q) hij.le ⟨hij, hi⟩
      have hle : i ≤ Nat.findGreatest (fun m => m < j ∧ Uses ops m q) j :=
        Nat.le_findGreatest hij.le ⟨hij, hi⟩
      refine ⟨_, hle, hfound.1, hfound.2, hj, fun m hm hmj huse => ?_⟩
      exact Nat.findGreatest_is_greatest hm hmj.le ⟨hmj, huse⟩
    obtain ⟨m, him, hlead⟩ := hlatest
    obtain ⟨e, he, rfl, rfl⟩ := (exists_edge_iff ops m j).mpr ⟨q, hlead⟩
    have hstep := level_lt_of_edge he
    rcases Nat.eq_or_lt_of_le him with rfl | hlt
    · exact hstep
    · exact (ih e.source hlead.before hlt hlead.source).trans hstep

theorem level_le_depth {j : ℕ} (h : j < ops.length) :
    level (ofOperations ops).edges j ≤ (ofOperations ops).depth := by
  refine le_foldl_max ?_
  rw [levels_eq]
  exact List.mem_map.mpr ⟨j, List.mem_range.mpr h, rfl⟩

theorem exists_level_eq_depth (h : (ofOperations ops).depth ≠ 0) :
    ∃ j < ops.length, level (ofOperations ops).edges j = (ofOperations ops).depth := by
  have hmem : (ofOperations ops).depth ∈ levels (ofOperations ops).edges ops.length := foldl_max_mem h
  rw [levels_eq] at hmem
  obtain ⟨j, hj, hlevel⟩ := List.mem_map.mp hmem
  exact ⟨j, List.mem_range.mp hj, hlevel⟩

/-- Along a chain the levels rise, so it is no longer than the depth. -/
theorem length_le_depth {l : List Operation} (hl : l.Sublist ops) (hchain : l.IsChain Operation.Shares) :
    l.length ≤ (ofOperations ops).depth := by
  obtain ⟨positions, rfl, hpositions⟩ := List.sublist_eq_map_getElem hl
  let rank : Fin ops.length → ℕ := fun i => level (ofOperations ops).edges i
  have hrises : positions.IsChain fun i j => rank i < rank j := by
    have hshares := (List.isChain_map _).mp hchain
    rw [List.isChain_iff_getElem] at hshares ⊢
    intro n hn
    obtain ⟨q, hqi, hqj⟩ := hshares n hn
    have hlt := List.pairwise_iff_getElem.mp hpositions n (n + 1) (by omega) hn (by omega)
    have hi : Uses ops positions[n] q := ⟨_, List.getElem?_eq_getElem _, hqi⟩
    have hj : Uses ops positions[n + 1] q := ⟨_, List.getElem?_eq_getElem _, hqj⟩
    exact level_lt hlt hi hj
  have hsorted : (positions.map rank).Pairwise (· < ·) :=
    List.isChain_iff_pairwise.mp ((List.isChain_map rank).mpr hrises)
  have hnodup : (positions.map rank).Nodup := hsorted.imp fun h => h.ne
  have hwithin : (positions.map rank).toFinset ⊆ Finset.Icc 1 (ofOperations ops).depth := by
    intro r hr
    obtain ⟨i, -, rfl⟩ := List.mem_map.mp (List.mem_toFinset.mp hr)
    exact Finset.mem_Icc.mpr ⟨one_le_level _ _, level_le_depth i.isLt⟩
  have hcard := Finset.card_le_card hwithin
  rw [List.toFinset_card_of_nodup hnodup, Nat.card_Icc] at hcard
  simpa using hcard

/-- Some chain that ends at a position is as long as the level there. -/
theorem exists_chain_to {j : ℕ} {op : Operation} (h : ops[j]? = some op) :
    ∃ l, (l ++ [op]).Sublist (ops.take (j + 1)) ∧ (l ++ [op]).IsChain Operation.Shares ∧
      (l ++ [op]).length = level (ofOperations ops).edges j := by
  induction j using Nat.strong_induction_on generalizing op with
  | _ j ih =>
    have htake : ops.take (j + 1) = ops.take j ++ [op] := by
      rw [List.take_add_one, h]
      rfl
    rcases level_eq ops j with hone | ⟨i, q, hlead, hnext⟩
    · refine ⟨[], ?_, List.isChain_singleton op, hone.symm⟩
      rw [htake]
      exact List.sublist_append_right _ _
    · obtain ⟨earlier, hearlier, hq⟩ := hlead.source
      obtain ⟨op', hop', hq'⟩ := hlead.target
      obtain rfl : op = op' := Option.some.inj (h.symm.trans hop')
      obtain ⟨l, hsub, hchain, hlength⟩ := ih i hlead.before hearlier
      refine ⟨l ++ [earlier], ?_, ?_, ?_⟩
      · rw [htake]
        exact (hsub.trans (List.take_sublist_take_left hlead.before)).append (List.Sublist.refl _)
      · refine hchain.append (List.isChain_singleton op) ?_
        simpa using ⟨q, hq, hq'⟩
      · rw [List.length_append, hlength, hnext]
        rfl

theorem isGreatest_depth (ops : List Operation) : IsGreatest (chainLengths ops) (ofOperations ops).depth := by
  refine ⟨?_, ?_⟩
  · by_cases hzero : (ofOperations ops).depth = 0
    · exact ⟨[], List.nil_sublist _, List.isChain_nil, hzero.symm⟩
    · obtain ⟨j, hj, hlevel⟩ := exists_level_eq_depth hzero
      obtain ⟨l, hsub, hchain, hlength⟩ := exists_chain_to (List.getElem?_eq_getElem hj)
      exact ⟨_, hsub.trans (List.take_sublist _ _), hchain, hlength.trans hlevel⟩
  · rintro n ⟨l, hsub, hchain, rfl⟩
    exact length_le_depth hsub hchain

end Ranks

/-- On each bit stands the level of the last operation before that uses it, or zero. -/
def Tracks (ops before : List Operation) (busy : ℕ → ℕ) : Prop :=
  ∀ q, (busy q = 0 ∧ ∀ i, ¬ LastUse before q i) ∨
    ∃ i, LastUse before q i ∧ busy q = level (ofOperations ops).edges i

section Layers

variable {before rest : List Operation} {op : Operation} {busy : ℕ → ℕ}

/-- The next operation comes into the layer of its level. -/
theorem Tracks.layer_eq (h : Tracks (before ++ op :: rest) before busy) :
    (op.bits.map busy).foldl max 0 + 1 =
      level (ofOperations (before ++ op :: rest)).edges before.length := by
  have hat : ∀ q ∈ op.bits, Uses (before ++ op :: rest) before.length q :=
    fun q hq => uses_append_cons.mpr hq
  refine le_antisymm ?_ ?_
  · by_cases hzero : (op.bits.map busy).foldl max 0 = 0
    · rw [hzero]
      exact one_le_level _ _
    · obtain ⟨q, hq, hmax⟩ := List.mem_map.mp (foldl_max_mem hzero)
      rcases h q with ⟨hnone, -⟩ | ⟨i, hi, hlevel⟩
      · omega
      · have hlt := hi.1.lt_length
        have hrise := level_lt hlt ((uses_append_left hlt).mpr hi.1) (hat q hq)
        rw [← hmax, hlevel]
        exact hrise
  · rcases level_eq _ before.length with hone | ⟨i, q, hlead, hnext⟩
    · rw [hone]
      exact Nat.succ_pos _
    · obtain ⟨hq, hi⟩ := leads_append_cons.mp hlead
      rcases h q with ⟨-, hnone⟩ | ⟨i', hi', hlevel⟩
      · exact absurd hi (hnone i)
      · obtain rfl : i = i' := hi.unique hi'
        have hle := le_foldl_max (List.mem_map.mpr ⟨q, hq, hlevel⟩)
        omega

theorem Tracks.step (h : Tracks (before ++ op :: rest) before busy) :
    Tracks (before ++ op :: rest) (before ++ [op]) fun q =>
      if q ∈ op.bits then level (ofOperations (before ++ op :: rest)).edges before.length
      else busy q := by
  intro q
  by_cases hq : q ∈ op.bits
  · refine .inr ⟨before.length, ?_, if_pos hq⟩
    rw [lastUse_append_singleton, if_pos hq]
  · simpa only [lastUse_append_singleton, if_neg hq] using h q

end Layers

theorem layersFrom_eq (before rest : List Operation) (busy : ℕ → ℕ)
    (h : Tracks (before ++ rest) before busy) :
    layersFrom busy rest =
      (List.range' before.length rest.length).map (level (ofOperations (before ++ rest)).edges) := by
  -- what is in use on each bit goes on being its last level while operations pass to the front
  induction rest generalizing before busy with
  | nil => rfl
  | cons op rest ih =>
    have hsplit : before ++ [op] ++ rest = before ++ op :: rest := by simp
    have hlength : (before ++ [op]).length = before.length + 1 := by simp
    have hrest := ih (before ++ [op]) _ (hsplit ▸ h.step)
    rw [hlength, hsplit] at hrest
    rw [layersFrom, h.layer_eq, hrest, List.length_cons, List.range'_succ, List.map_cons]

theorem layers_eq (ops : List Operation) :
    layers ops = levels (ofOperations ops).edges ops.length := by
  have hstart := layersFrom_eq [] ops (fun _ => 0) ?_
  · rw [layers, hstart, levels_eq, List.range_eq_range']
    rfl
  · intro q
    exact .inl ⟨rfl, fun i hi => absurd hi.1.lt_length (by simp)⟩

/-- No layer below one in use is left out. -/
theorem exists_level {ops : List Operation} {j m : ℕ} (hj : j < ops.length) (hm : 1 ≤ m)
    (hle : m ≤ level (ofOperations ops).edges j) :
    ∃ i < ops.length, level (ofOperations ops).edges i = m := by
  induction j using Nat.strong_induction_on with
  | _ j ih =>
    rcases Nat.eq_or_lt_of_le hle with heq | hlt
    · exact ⟨j, hj, heq.symm⟩
    · rcases level_eq ops j with hone | ⟨i, q, hlead, hnext⟩
      · omega
      · have hi := hlead.before
        exact ih i hi (by omega) (by omega)

theorem card_layers (ops : List Operation) :
    (layers ops).toFinset.card = (ofOperations ops).depth := by
  have hall : (layers ops).toFinset = Finset.Icc 1 (ofOperations ops).depth := by
    ext m
    rw [layers_eq, levels_eq, List.mem_toFinset, List.mem_map, Finset.mem_Icc]
    constructor
    · rintro ⟨j, hj, rfl⟩
      exact ⟨one_le_level _ _, level_le_depth (List.mem_range.mp hj)⟩
    · rintro ⟨hone, hdepth⟩
      have hzero : (ofOperations ops).depth ≠ 0 := by omega
      obtain ⟨j, hj, hlevel⟩ := exists_level_eq_depth hzero
      obtain ⟨i, hi, him⟩ := exists_level hj hone (hdepth.trans hlevel.ge)
      exact ⟨i, List.mem_range.mpr hi, him⟩
  rw [hall, Nat.card_Icc]
  rfl

theorem depth_eq_zero_iff (ops : List Operation) : (ofOperations ops).depth = 0 ↔ ops = [] := by
  constructor
  · intro hzero
    by_contra hne
    have hpos : 0 < ops.length := List.length_pos_iff.mpr hne
    have hle := level_le_depth hpos
    have hone := one_le_level (ofOperations ops).edges 0
    omega
  · rintro rfl
    rfl

theorem depth_le_of_sublist {ops ops' : List Operation} (h : ops'.Sublist ops) :
    (ofOperations ops').depth ≤ (ofOperations ops).depth := by
  obtain ⟨l, hsub, hchain, hlength⟩ := (isGreatest_depth ops').1
  exact (isGreatest_depth ops).2 ⟨l, hsub.trans h, hchain, hlength⟩

end DependencyGraph

/-- The bits of the operations that take part. -/
def Kernel.bitsInUse (k : Kernel) : List ℕ := k.operations.flatMap Operation.bits

/-- What may be left of instructions when some of them, at any depth, are taken out or disabled. -/
inductive Thinned : List Instruction → List Instruction → Prop
  | nil : Thinned [] []
  | keep (i : Instruction) {body body' : List Instruction} (rest : Thinned body body') :
      Thinned (i :: body) (i :: body')
  | remove (i : Instruction) {body body' : List Instruction} (rest : Thinned body body') :
      Thinned (i :: body) body'
  | disable (i : Instruction) {body body' : List Instruction} (rest : Thinned body body') :
      Thinned (i :: body) (i.setEnabled false :: body')
  | inside (h : Header) {inner inner' body body' : List Instruction} (block : Thinned inner inner')
      (rest : Thinned body body') : Thinned (.block h inner :: body) (.block h inner' :: body')

theorem Thinned.refl (body : List Instruction) : Thinned body body := by
  induction body with
  | nil => exact .nil
  | cons i rest ih => exact .keep i ih

theorem thinned_eraseIdx (body : List Instruction) (n : ℕ) : Thinned body (body.eraseIdx n) := by
  induction body generalizing n with
  | nil => exact .nil
  | cons i rest ih =>
    cases n with
    | zero => exact .remove i (.refl rest)
    | succ n => exact .keep i (ih n)

theorem Thinned.operations_sublist {body body' : List Instruction} (h : Thinned body body') :
    (body'.flatMap Instruction.operations).Sublist (body.flatMap Instruction.operations) := by
  induction h with
  | nil => exact List.Sublist.refl _
  | keep i _ ih => exact (List.Sublist.refl _).append ih
  | remove i _ ih => exact ih.trans (List.sublist_append_right _ _)
  | disable i _ ih =>
    have hnone : (i.setEnabled false).operations = [] := by cases i <;> rfl
    rw [List.flatMap_cons, hnone, List.nil_append]
    exact ih.trans (List.sublist_append_right _ _)
  | inside h _ _ ihblock ih =>
    refine List.Sublist.append ?_ ih
    simp only [Instruction.operations, Instruction.operationsOf_eq]
    split
    · exact ihblock
    · exact List.Sublist.refl _

theorem Instruction.operations_relabel (map : List ℕ) (i : Instruction) :
    (i.relabel map).operations = i.operations.map (Operation.relabel map) := by
  induction i using tree_induction with
  | leaf op =>
    simp only [relabel, operations, Operation.relabel]
    split <;> rfl
  | block h body ih =>
    have hbody : (body.map (relabel map)).flatMap operations =
        (body.flatMap operations).map (Operation.relabel map) := by
      rw [List.flatMap_map, List.map_flatMap]
      exact List.flatMap_congr ih
    simp only [relabel, relabelOf_eq, operations, operationsOf_eq, Header.relabel, hbody]
    split <;> rfl

theorem Operation.shares_relabel {map : List ℕ} {a b : Operation}
    (ha : ∀ q ∈ a.bits, q < map.length) (hb : ∀ q ∈ b.bits, q < map.length)
    (hinj : ∀ p ∈ a.bits, ∀ q ∈ b.bits, map[p]? = map[q]? → p = q) :
    (a.relabel map).Shares (b.relabel map) ↔ a.Shares b := by
  have hget : ∀ q < map.length, map[q]? = some (map.getD q q) := by
    intro q hq
    simp [hq]
  constructor
  · rintro ⟨q, hqa, hqb⟩
    obtain ⟨x, hx, rfl⟩ := List.mem_map.mp hqa
    obtain ⟨y, hy, hxy⟩ := List.mem_map.mp hqb
    have hsame : map[x]? = map[y]? := by rw [hget x (ha x hx), hget y (hb y hy), hxy]
    exact ⟨x, hx, hinj x hx y hy hsame ▸ hy⟩
  · rintro ⟨q, hqa, hqb⟩
    exact ⟨map.getD q q, List.mem_map.mpr ⟨q, hqa, rfl⟩, List.mem_map.mpr ⟨q, hqb, rfl⟩⟩

/-- Chains stay chains on new bits, as long as no two bits become one. -/
theorem chainLengths_relabel {map : List ℕ} {ops : List Operation}
    (hcovered : ∀ op ∈ ops, ∀ q ∈ op.bits, q < map.length)
    (hinj : ∀ p ∈ ops.flatMap Operation.bits, ∀ q ∈ ops.flatMap Operation.bits,
      map[p]? = map[q]? → p = q) :
    chainLengths (ops.map (Operation.relabel map)) = chainLengths ops := by
  have hchain : ∀ l : List Operation, l.Sublist ops →
      ((l.map (Operation.relabel map)).IsChain Operation.Shares ↔ l.IsChain Operation.Shares) := by
    intro l hl
    rw [List.isChain_map]
    refine List.IsChain.iff_of_mem_imp fun a b ha hb => ?_
    have ha := hl.subset ha
    have hb := hl.subset hb
    refine Operation.shares_relabel (hcovered a ha) (hcovered b hb) fun p hp q hq => ?_
    exact hinj p (List.mem_flatMap.mpr ⟨a, ha, hp⟩) q (List.mem_flatMap.mpr ⟨b, hb, hq⟩)
  ext n
  constructor
  · rintro ⟨l', hsub, hl', rfl⟩
    obtain ⟨l, hl, rfl⟩ := List.sublist_map_iff.mp hsub
    exact ⟨l, hl, (hchain l hl).mp hl', by simp⟩
  · rintro ⟨l, hl, hl', rfl⟩
    exact ⟨l.map (Operation.relabel map), hl.map _, (hchain l hl).mpr hl', by simp⟩

namespace Kernel

theorem depth_of_gate {k : Kernel} (h : k.header.kind = .gate) :
    k.depth = .ok (DependencyGraph.ofOperations k.operations).depth := by
  rw [depth, h]
  rfl

theorem depth_thinned {k k' : Kernel} (h : Thinned k.body k'.body) :
    (DependencyGraph.ofOperations k'.operations).depth ≤
      (DependencyGraph.ofOperations k.operations).depth := by
  rw [operations_eq, operations_eq]
  exact DependencyGraph.depth_le_of_sublist h.operations_sublist

theorem operations_relabel (map : List ℕ) (k : Kernel) :
    (Kernel.mk (k.header.relabel map) (Instruction.relabel.relabelOf map k.body)).operations =
      k.operations.map (Operation.relabel map) := by
  rw [operations_eq, operations_eq, Instruction.relabelOf_eq, List.flatMap_map, List.map_flatMap]
  exact List.flatMap_congr fun i _ => i.operations_relabel map

theorem depth_mapBits {k k' : Kernel} {map : List ℕ} (h : k.mapBits map = .ok k')
    (hinj : ∀ p ∈ k.bitsInUse, ∀ q ∈ k.bitsInUse, map[p]? = map[q]? → p = q) :
    k'.depth = .ok (DependencyGraph.ofOperations k.operations).depth := by
  rw [mapBits] at h
  split at h
  · cases h
  · rename_i hkind
    split at h
    · cases h
    · rename_i hcovered
      cases h
      have hwidth := width_le_iff.mpr hcovered
      have hbits : ∀ op ∈ k.operations, ∀ q ∈ op.bits, q < map.length :=
        fun op hop q hq => (lt_width hop hq).trans_le hwidth
      have hdepth := depth_of_gate (k := ⟨k.header.relabel map,
        Instruction.relabel.relabelOf map k.body⟩) hkind
      rw [hdepth, operations_relabel]
      have hlengths := chainLengths_relabel hbits hinj
      have hnew := DependencyGraph.isGreatest_depth (k.operations.map (Operation.relabel map))
      rw [hlengths] at hnew
      rw [hnew.unique (DependencyGraph.isGreatest_depth k.operations)]

end Kernel

/-- The depth of a gate kernel is the length of its longest chains and the number of its layers, and
zero only where no operation takes part. It stays the same on new bits, unless a map sends two bits
in use to one, and does not grow when instructions are taken out or disabled. -/
theorem depth_is_critical_path {k : Kernel} (h : k.header.kind = .gate) :
    ∃ d, k.depth = .ok d ∧
      IsGreatest (chainLengths k.operations) d ∧
      (layers k.operations).toFinset.card = d ∧
      (d = 0 ↔ k.operations = []) ∧
      (∀ map k', k.mapBits map = .ok k' →
        (∀ p ∈ k.bitsInUse, ∀ q ∈ k.bitsInUse, map[p]? = map[q]? → p = q) → k'.depth = .ok d) ∧
      (∀ body, Thinned k.body body → ∃ d' ≤ d, Kernel.depth ⟨k.header, body⟩ = .ok d') ∧
      ∀ n i k', k.remove n = .ok (i, k') → ∃ d' ≤ d, k'.depth = .ok d' := by
  have hthinned : ∀ body, Thinned k.body body →
      ∃ d' ≤ (DependencyGraph.ofOperations k.operations).depth,
        Kernel.depth ⟨k.header, body⟩ = .ok d' :=
    fun body hbody => ⟨_, @Kernel.depth_thinned k ⟨k.header, body⟩ hbody, Kernel.depth_of_gate h⟩
  refine ⟨_, Kernel.depth_of_gate h, DependencyGraph.isGreatest_depth _, DependencyGraph.card_layers _,
    DependencyGraph.depth_eq_zero_iff _, fun map k' => Kernel.depth_mapBits, hthinned, ?_⟩
  intro n i k' hremove
  rw [Kernel.remove] at hremove
  split at hremove
  · cases hremove
    exact hthinned _ (thinned_eraseIdx k.body n)
  · cases hremove

open DependencyGraph in
theorem depth_is_critical_path_tangledKernel :
    tangledKernel.header.kind = .gate ∧ tangledKernel.depth = .ok 3 ∧
    IsGreatest (chainLengths tangledKernel.operations) 3 ∧
    (∃ k', tangledKernel.mapBits [4, 0, 9] = .ok k' ∧ k'.depth = .ok 3) ∧
    ∃ i k', tangledKernel.remove 2 = .ok (i, k') ∧ ∃ d' ≤ 3, k'.depth = .ok d' := by
  obtain ⟨d, hdepth, hgreatest, -, -, hmap, -, hremove⟩ :=
    depth_is_critical_path (k := tangledKernel) rfl
  have hthree : tangledKernel.depth = .ok 3 := by decide
  obtain rfl : d = 3 := Except.ok.inj (hdepth.symm.trans hthree)
  have hinj : ∀ p ∈ tangledKernel.bitsInUse, ∀ q ∈ tangledKernel.bitsInUse,
      [4, 0, 9][p]? = [4, 0, 9][q]? → p = q := by decide
  exact ⟨rfl, hdepth, hgreatest, ⟨_, rfl, hmap [4, 0, 9] _ rfl hinj⟩, _, _, rfl, hremove 2 _ _ rfl⟩

end QuantumKernels
