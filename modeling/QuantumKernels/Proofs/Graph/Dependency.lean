import QuantumKernels.Graph.Basic
import Mathlib.Data.List.Nodup
import Mathlib.Data.List.Pairwise
import Mathlib.Tactic.Common

/-!
# Dependencies follow the bits

A bit leads from a position to a later one when the operations at both use it and none strictly
between does. The edges of a dependency graph are the pairs of positions that some bit leads
between, each pair once, and an edge carries exactly the bits that lead along it.
-/
namespace QuantumKernels.DependencyGraph

/-- The operation at this position uses the bit. -/
def Uses (ops : List Operation) (i bit : ℕ) : Prop := ∃ op, ops[i]? = some op ∧ bit ∈ op.bits

structure Leads (ops : List Operation) (i j bit : ℕ) : Prop where
  before : i < j
  source : Uses ops i bit
  target : Uses ops j bit
  between : ∀ m, i < m → m < j → ¬ Uses ops m bit

/-- The last position that uses the bit. -/
def LastUse (ops : List Operation) (bit i : ℕ) : Prop :=
  Uses ops i bit ∧ ∀ m, i < m → ¬ Uses ops m bit

theorem LastUse.unique {ops : List Operation} {bit i j : ℕ} (hi : LastUse ops bit i)
    (hj : LastUse ops bit j) : i = j := by
  have hij : ¬ i < j := fun h => hi.2 j h hj.1
  have hji : ¬ j < i := fun h => hj.2 i h hi.1
  omega

theorem Uses.lt_length {ops : List Operation} {i bit : ℕ} (h : Uses ops i bit) : i < ops.length := by
  obtain ⟨op, hop, -⟩ := h
  exact (List.getElem?_eq_some_iff.mp hop).1

theorem uses_append_left {before rest : List Operation} {i bit : ℕ} (h : i < before.length) :
    Uses (before ++ rest) i bit ↔ Uses before i bit := by
  simp only [Uses, List.getElem?_append_left h]

theorem uses_append_cons {before rest : List Operation} {op : Operation} {bit : ℕ} :
    Uses (before ++ op :: rest) before.length bit ↔ bit ∈ op.bits := by
  simp [Uses]

/-- What leads to a position is the last use before it. -/
theorem leads_append_cons {before rest : List Operation} {op : Operation} {i bit : ℕ} :
    Leads (before ++ op :: rest) i before.length bit ↔ bit ∈ op.bits ∧ LastUse before bit i := by
  constructor
  · intro h
    have hlast : ∀ m, i < m → ¬ Uses before m bit := by
      intro m him hm
      have hlt := hm.lt_length
      exact h.between m him hlt ((uses_append_left hlt).mpr hm)
    exact ⟨uses_append_cons.mp h.target, (uses_append_left h.before).mp h.source, hlast⟩
  · rintro ⟨hbit, huse, hlast⟩
    have hlt := huse.lt_length
    refine ⟨hlt, (uses_append_left hlt).mpr huse, uses_append_cons.mpr hbit, ?_⟩
    intro m him hm huse'
    exact hlast m him ((uses_append_left hm).mp huse')

theorem lastUse_append_singleton {before : List Operation} {op : Operation} {bit i : ℕ} :
    LastUse (before ++ [op]) bit i ↔
      if bit ∈ op.bits then i = before.length else LastUse before bit i := by
  have hnode : Uses (before ++ [op]) before.length bit ↔ bit ∈ op.bits := uses_append_cons
  have hlen : ∀ {m}, Uses (before ++ [op]) m bit → m < before.length ∨ m = before.length := by
    intro m hm
    have := hm.lt_length
    rw [List.length_append, List.length_singleton] at this
    omega
  split_ifs with hbit
  · constructor
    · rintro ⟨huse, hlast⟩
      rcases hlen huse with hlt | heq
      · exact absurd (hnode.mpr hbit) (hlast _ hlt)
      · exact heq
    · rintro rfl
      refine ⟨hnode.mpr hbit, fun m hm huse => ?_⟩
      rcases hlen huse with hlt | heq <;> omega
  · have hsame : ∀ m, Uses (before ++ [op]) m bit ↔ Uses before m bit := by
      intro m
      constructor
      · intro huse
        rcases hlen huse with hlt | rfl
        · exact (uses_append_left hlt).mp huse
        · exact absurd (hnode.mp huse) hbit
      · intro huse
        exact (uses_append_left huse.lt_length).mpr huse
    simp only [LastUse, hsame]

/-- The sources of the edges into a node stay distinct. -/
theorem map_source_addBit (source target bit : ℕ) (edges : List Edge) :
    (addBit source target bit edges).map Edge.source =
      if source ∈ edges.map Edge.source then edges.map Edge.source
      else edges.map Edge.source ++ [source] := by
  induction edges with
  | nil => simp [addBit]
  | cons e rest ih =>
    by_cases h : e.source = source
    · simp [addBit, h]
    · have h' : ¬ source = e.source := fun heq => h heq.symm
      simp only [addBit, if_neg h, List.map_cons, ih, List.mem_cons, h', false_or]
      split_ifs <;> rfl

theorem nodup_map_source_addBit {source target bit : ℕ} {edges : List Edge}
    (h : (edges.map Edge.source).Nodup) : ((addBit source target bit edges).map Edge.source).Nodup := by
  rw [map_source_addBit]
  split_ifs with hs
  · exact h
  · refine List.nodup_append.mpr ⟨h, by simp, ?_⟩
    intro i hi j hj
    rw [List.mem_singleton.mp hj]
    rintro rfl
    exact hs hi

theorem mem_map_source_addBit {source target bit i : ℕ} {edges : List Edge} :
    i ∈ (addBit source target bit edges).map Edge.source ↔
      i = source ∨ i ∈ edges.map Edge.source := by
  rw [map_source_addBit]
  split_ifs with hs
  · constructor
    · exact .inr
    · rintro (rfl | hi)
      · exact hs
      · exact hi
  · rw [List.mem_append, List.mem_singleton, or_comm]

/-- A bit is added to the edge from its source, or else is the first bit of a new edge. -/
theorem mem_addBit {source target bit : ℕ} {edges : List Edge} (h : (edges.map Edge.source).Nodup)
    {e : Edge} : e ∈ addBit source target bit edges ↔
      (e ∈ edges ∧ e.source ≠ source) ∨
      (∃ e' ∈ edges, e'.source = source ∧ e = { e' with bits := e'.bits ++ [bit] }) ∨
      (source ∉ edges.map Edge.source ∧ e = ⟨source, target, [bit]⟩) := by
  induction edges with
  | nil => simp [addBit]
  | cons d rest ih =>
    obtain ⟨hd, hrest⟩ := List.nodup_cons.mp h
    by_cases hs : d.source = source
    · have hne : ∀ e ∈ rest, e.source ≠ source := by
        intro e he heq
        exact hd (List.mem_map.mpr ⟨e, he, heq.trans hs.symm⟩)
      rw [addBit, if_pos hs]
      constructor
      · intro he
        rcases List.mem_cons.mp he with rfl | he
        · exact .inr (.inl ⟨d, by simp, hs, rfl⟩)
        · exact .inl ⟨by simp [he], hne e he⟩
      · rintro (⟨he, hes⟩ | ⟨e', he', hes, rfl⟩ | ⟨hnew, -⟩)
        · rcases List.mem_cons.mp he with rfl | he
          · exact absurd hs hes
          · simp [he]
        · rcases List.mem_cons.mp he' with rfl | he'
          · simp
          · exact absurd hes (hne e' he')
        · exact absurd (by simp [hs]) hnew
    · have hs' : source ≠ d.source := fun heq => hs heq.symm
      rw [addBit, if_neg hs, List.mem_cons, ih hrest]
      constructor
      · rintro (rfl | ⟨he, hes⟩ | ⟨e', he', hes, rfl⟩ | ⟨hnew, rfl⟩)
        · exact .inl ⟨by simp, hs⟩
        · exact .inl ⟨by simp [he], hes⟩
        · exact .inr (.inl ⟨e', by simp [he'], hes, rfl⟩)
        · exact .inr (.inr ⟨fun hm => (List.mem_cons.mp hm).elim hs' hnew, rfl⟩)
      · rintro (⟨he, hes⟩ | ⟨e', he', hes, rfl⟩ | ⟨hnew, rfl⟩)
        · rcases List.mem_cons.mp he with rfl | he
          · exact .inl rfl
          · exact .inr (.inl ⟨he, hes⟩)
        · rcases List.mem_cons.mp he' with rfl | he'
          · exact absurd hes hs
          · exact .inr (.inr (.inl ⟨e', he', hes, rfl⟩))
        · exact .inr (.inr (.inr ⟨fun hm => hnew (List.mem_cons_of_mem _ hm), rfl⟩))

section Gathering

variable {node : ℕ} {known : List (ℕ × ℕ)} {done : List ℕ} {s : Entry}

/-- What a node has gathered after some of its bits: one edge from each of the nodes known before as
the last on one of these bits, with the bits it was the last on. -/
structure Entry.Gathers (node : ℕ) (known : List (ℕ × ℕ)) (done : List ℕ) (s : Entry) : Prop where
  last : ∀ q, s.last.lookup q = if q ∈ done then some node else known.lookup q
  target : ∀ e ∈ s.incoming, e.target = node
  once : (s.incoming.map Edge.source).Nodup
  bits : ∀ e ∈ s.incoming, e.bits ≠ [] ∧ e.bits.Nodup ∧
    ∀ q, q ∈ e.bits ↔ q ∈ done ∧ known.lookup q = some e.source
  all : ∀ q ∈ done, ∀ i, known.lookup q = some i → i ∈ s.incoming.map Edge.source

theorem Entry.Gathers.lookup_cons (h : s.Gathers node known done) (bit q : ℕ) :
    ((bit, node) :: s.last).lookup q =
      if q ∈ done ++ [bit] then some node else known.lookup q := by
  by_cases hq : q = bit
  · simp [hq]
  · have hne : (q == bit) = false := by simpa using hq
    rw [List.lookup_cons, hne, h.last q]
    simp [hq]

/-- A bit that is not new, or has no node before, brings nothing. -/
theorem Entry.Gathers.keep (h : s.Gathers node known done) {bit : ℕ}
    (hbit : bit ∈ done ∨ known.lookup bit = none) :
    Gathers node known (done ++ [bit]) ⟨s.incoming, (bit, node) :: s.last⟩ := by
  have hdone : ∀ q i, known.lookup q = some i → (q ∈ done ++ [bit] ↔ q ∈ done) := by
    intro q i hi
    by_cases hq : q = bit
    · subst hq
      have hmem : q ∈ done := hbit.resolve_right (by simp [hi])
      simp [hmem]
    · simp [hq]
  refine ⟨h.lookup_cons bit, h.target, h.once, fun e he => ?_, fun q hq i hi => ?_⟩
  · obtain ⟨hne, hnodup, hbits⟩ := h.bits e he
    refine ⟨hne, hnodup, fun q => (hbits q).trans ?_⟩
    exact and_congr_left fun hi => (hdone q _ hi).symm
  · exact h.all q ((hdone q i hi).mp hq) i hi

theorem Entry.Gathers.bits_addBit (h : s.Gathers node known done) {bit earlier : ℕ} (hbit : bit ∉ done)
    (hearlier : known.lookup bit = some earlier) {e : Edge}
    (he : e ∈ addBit earlier node bit s.incoming) :
    e.bits ≠ [] ∧ e.bits.Nodup ∧
      ∀ q, q ∈ e.bits ↔ q ∈ done ++ [bit] ∧ known.lookup q = some e.source := by
  have hother : ∀ q, q ≠ bit → (q ∈ done ++ [bit] ↔ q ∈ done) := by
    intro q hq
    simp [hq]
  rcases (mem_addBit h.once).mp he with ⟨he, hes⟩ | ⟨e', he', rfl, rfl⟩ | ⟨hnew, rfl⟩
  · obtain ⟨hne, hnodup, hbits⟩ := h.bits e he
    refine ⟨hne, hnodup, fun q => (hbits q).trans ?_⟩
    by_cases hq : q = bit
    · have hsource : some earlier ≠ some e.source := by simpa using hes.symm
      simp [hq, hearlier, hsource, hbit]
    · rw [hother q hq]
  · obtain ⟨-, hnodup, hbits⟩ := h.bits e' he'
    refine ⟨by simp, List.nodup_append.mpr ⟨hnodup, by simp, ?_⟩, fun q => ?_⟩
    · intro q hq b hb
      rw [List.mem_singleton.mp hb]
      rintro rfl
      exact hbit ((hbits q).mp hq).1
    · by_cases hq : q = bit
      · simp [hq, hearlier]
      · simp [hq, hbits q]
  · refine ⟨by simp, by simp, fun q => ?_⟩
    by_cases hq : q = bit
    · simp [hq, hearlier]
    · have hnone : ¬ (q ∈ done ∧ known.lookup q = some earlier) := by
        rintro ⟨hd, hl⟩
        exact hnew (h.all q hd _ hl)
      rw [hother q hq]
      simpa [hq] using hnone

theorem Entry.Gathers.add (h : s.Gathers node known done) {bit earlier : ℕ} (hbit : bit ∉ done)
    (hearlier : known.lookup bit = some earlier) :
    Gathers node known (done ++ [bit])
      ⟨addBit earlier node bit s.incoming, (bit, node) :: s.last⟩ := by
  refine ⟨h.lookup_cons bit, fun e he => ?_, nodup_map_source_addBit h.once,
    fun e he => h.bits_addBit hbit hearlier he, fun q hq i hi => mem_map_source_addBit.mpr ?_⟩
  · rcases (mem_addBit h.once).mp he with ⟨he, -⟩ | ⟨e', he', -, rfl⟩ | ⟨-, rfl⟩
    · exact h.target e he
    · exact h.target e' he'
    · rfl
  · rcases List.mem_append.mp hq with hq | hq
    · exact .inr (h.all q hq i hi)
    · rw [List.mem_singleton.mp hq, hearlier] at hi
      exact .inl (Option.some.inj hi).symm

theorem Entry.Gathers.step (h : s.Gathers node known done)
    (hknown : ∀ q i, known.lookup q = some i → i < node) (bit : ℕ) :
    (Entry.step node s bit).Gathers node known (done ++ [bit]) := by
  rw [Entry.step, h.last bit]
  by_cases hbit : bit ∈ done
  · simpa [hbit] using h.keep (.inl hbit)
  · rw [if_neg hbit]
    cases hearlier : known.lookup bit with
    | none => exact h.keep (.inr hearlier)
    | some earlier =>
      have hlt := hknown bit earlier hearlier
      have hne : earlier ≠ node := by omega
      simpa [hne] using h.add hbit hearlier

theorem Entry.gathers_foldl (hknown : ∀ q i, known.lookup q = some i → i < node) (bits : List ℕ) :
    (bits.foldl (Entry.step node) ⟨[], known⟩).Gathers node known bits := by
  have hrun : ∀ (bits done : List ℕ) (s : Entry), s.Gathers node known done →
      (bits.foldl (Entry.step node) s).Gathers node known (done ++ bits) := by
    intro bits
    induction bits with
    | nil => simp
    | cons bit rest ih =>
      intro done s hs
      have hrest := ih (done ++ [bit]) _ (hs.step hknown bit)
      simpa using hrest
  have hstart : (Entry.mk [] known).Gathers node known [] := by
    refine ⟨?_, ?_, ?_, ?_, ?_⟩ <;> simp
  simpa using hrun bits [] _ hstart

end Gathering

/-- These are the edges into the positions from `start` on. -/
structure Describes (ops : List Operation) (start : ℕ) (edges : List Edge) : Prop where
  target : ∀ e ∈ edges, start ≤ e.target
  once : edges.Pairwise fun e e' => ¬ (e.source = e'.source ∧ e.target = e'.target)
  bits : ∀ e ∈ edges, e.bits ≠ [] ∧ e.bits.Nodup ∧ ∀ q, q ∈ e.bits ↔ Leads ops e.source e.target q
  all : ∀ i j q, start ≤ j → Leads ops i j q → ∃ e ∈ edges, e.source = i ∧ e.target = j

/-- The edges into one node, in front of those into the nodes after it. -/
theorem Entry.Gathers.describes {before rest : List Operation} {op : Operation} {last : List (ℕ × ℕ)}
    {s : Entry} {edges : List Edge} (hs : s.Gathers before.length last op.bits)
    (hlast : ∀ q i, last.lookup q = some i ↔ LastUse before q i)
    (hrest : Describes (before ++ op :: rest) (before.length + 1) edges) :
    Describes (before ++ op :: rest) before.length (s.incoming ++ edges) := by
  have hleads : ∀ i q, Leads (before ++ op :: rest) i before.length q ↔
      q ∈ op.bits ∧ last.lookup q = some i := by
    intro i q
    rw [leads_append_cons, hlast q i]
  refine ⟨fun e he => ?_, ?_, fun e he => ?_, fun i j q hj hq => ?_⟩
  · rcases List.mem_append.mp he with he | he
    · exact Nat.le_of_eq (hs.target e he).symm
    · have := hrest.target e he
      omega
  · refine List.pairwise_append.mpr ⟨?_, hrest.once, ?_⟩
    · exact (List.pairwise_map.mp hs.once).imp fun hne hboth => hne hboth.1
    · rintro e he e' he' ⟨-, htarget⟩
      have h1 := hs.target e he
      have h2 := hrest.target e' he'
      omega
  · rcases List.mem_append.mp he with he | he
    · obtain ⟨hne, hnodup, hbits⟩ := hs.bits e he
      refine ⟨hne, hnodup, fun q => ?_⟩
      rw [hs.target e he, hbits q, hleads]
    · exact hrest.bits e he
  · rcases Nat.eq_or_lt_of_le hj with rfl | hj
    · obtain ⟨hqbit, hqlast⟩ := (hleads i q).mp hq
      obtain ⟨e, he, hei⟩ := List.mem_map.mp (hs.all q hqbit i hqlast)
      exact ⟨e, List.mem_append_left _ he, hei, hs.target e he⟩
    · obtain ⟨e, he, hboth⟩ := hrest.all i j q hj hq
      exact ⟨e, List.mem_append_right _ he, hboth⟩

theorem describes_edgesFrom (before rest : List Operation) (last : List (ℕ × ℕ))
    (hlast : ∀ q i, last.lookup q = some i ↔ LastUse before q i) :
    Describes (before ++ rest) before.length (edgesFrom before.length last rest) := by
  -- the last use of each bit stays known while operations pass to the front
  induction rest generalizing before last with
  | nil =>
    refine ⟨by simp [edgesFrom], by simp [edgesFrom], by simp [edgesFrom], ?_⟩
    intro i j q hj hleads
    have := hleads.target.lt_length
    rw [List.append_nil] at this
    omega
  | cons op rest ih =>
    have hlt : ∀ q i, last.lookup q = some i → i < before.length := by
      intro q i hi
      exact ((hlast q i).mp hi).1.lt_length
    have hs := Entry.gathers_foldl hlt op.bits
    rw [edgesFrom]
    generalize op.bits.foldl (Entry.step before.length) ⟨[], last⟩ = s at hs
    have hlast' : ∀ q i, s.last.lookup q = some i ↔ LastUse (before ++ [op]) q i := by
      intro q i
      rw [hs.last q, lastUse_append_singleton]
      split_ifs with hq
      · exact ⟨fun h => (Option.some.inj h).symm, fun h => h ▸ rfl⟩
      · exact hlast q i
    have hrest := ih (before ++ [op]) s.last hlast'
    rw [List.append_assoc, List.singleton_append, List.length_append, List.length_singleton] at hrest
    exact hs.describes hlast hrest

theorem describes_ofOperations (ops : List Operation) :
    Describes ops 0 (ofOperations ops).edges := by
  have hlast : ∀ q i, ([] : List (ℕ × ℕ)).lookup q = some i ↔ LastUse [] q i := by
    intro q i
    have hnone : ¬ LastUse [] q i := fun h => absurd h.1.lt_length (by simp)
    simp [hnone]
  exact describes_edgesFrom [] ops [] hlast

theorem exists_edge_iff (ops : List Operation) (i j : ℕ) :
    (∃ e ∈ (ofOperations ops).edges, e.source = i ∧ e.target = j) ↔ ∃ q, Leads ops i j q := by
  have h := describes_ofOperations ops
  constructor
  · rintro ⟨e, he, rfl, rfl⟩
    obtain ⟨hne, -, hbits⟩ := h.bits e he
    obtain ⟨q, hq⟩ := List.exists_mem_of_ne_nil _ hne
    exact ⟨q, (hbits q).mp hq⟩
  · rintro ⟨q, hq⟩
    exact h.all i j q (Nat.zero_le j) hq

theorem hasEdge_iff (ops : List Operation) (i j : ℕ) : (ofOperations ops).hasEdge i j = true ↔
    ∃ e ∈ (ofOperations ops).edges, e.source = address i ∧ e.target = address j := by
  simp [hasEdge]

/-- The nodes of a dependency graph are the operations that take part, at their positions, and its
edges are the pairs of positions that a bit leads between: each pair once, no node with itself,
and with exactly these bits, each once. -/
theorem dependencies_follow_bits (k : Kernel) :
    (ofKernel k).operations = k.operations ∧
    (∀ n < 2 ^ 32, (ofKernel k).node? n = k.operations[n]?.map fun op => (n, op)) ∧
    (∀ i j, (∃ e ∈ (ofKernel k).edges, e.source = i ∧ e.target = j) ↔
      ∃ q, Leads k.operations i j q) ∧
    (∀ i < 2 ^ 32, ∀ j < 2 ^ 32, (ofKernel k).hasEdge i j = true ↔ ∃ q, Leads k.operations i j q) ∧
    (ofKernel k).edges.Pairwise (fun e e' => ¬ (e.source = e'.source ∧ e.target = e'.target)) ∧
    ∀ e ∈ (ofKernel k).edges, e.source ≠ e.target ∧ e.bits.Nodup ∧
      ∀ q, q ∈ e.bits ↔ Leads k.operations e.source e.target q := by
  have h := describes_ofOperations k.operations
  have hedge := exists_edge_iff k.operations
  refine ⟨rfl, fun n hn => ?_, hedge, fun i hi j hj => ?_, h.once, fun e he => ?_⟩
  · have haddress : address n = n := Nat.mod_eq_of_lt hn
    rw [node?, haddress]
    rfl
  · have hi' : address i = i := Nat.mod_eq_of_lt hi
    have hj' : address j = j := Nat.mod_eq_of_lt hj
    rw [← hedge i j]
    have hhas := hasEdge_iff k.operations i j
    rwa [hi', hj'] at hhas
  · obtain ⟨q, hq⟩ := (hedge e.source e.target).mp ⟨e, he, rfl, rfl⟩
    obtain ⟨-, hnodup, hbits⟩ := h.bits e he
    exact ⟨Nat.ne_of_lt hq.before, hnodup, hbits⟩

/-- A gate that lists one bit twice, and a block with a disabled gate between two others. -/
def tangledKernel : Kernel :=
  ⟨{ name := "tangled" }, [
    .leaf { name := "H", bits := [0] },
    .leaf { name := "CNOT", bits := [2, 2] },
    .block { name := "inner" } [
      .leaf { name := "X", bits := [0, 2], enabled := false },
      .leaf { name := "CZ", bits := [1, 0] }],
    .leaf { name := "Swap", bits := [0, 1] }]⟩

theorem dependencies_follow_bits_tangledKernel :
    (2 < 2 ^ 32 ∧ 3 < 2 ^ 32) ∧
    (ofKernel tangledKernel).node? 3 = some (3, { name := "Swap", bits := [0, 1] }) ∧
    (ofKernel tangledKernel).hasEdge 2 3 = true ∧ ¬ (ofKernel tangledKernel).hasEdge 0 3 = true ∧
    Edge.mk 2 3 [0, 1] ∈ (ofKernel tangledKernel).edges ∧ [0, 1].Nodup := by
  obtain ⟨-, hnode, -, hhas, -, hbits⟩ := dependencies_follow_bits tangledKernel
  have hmem : Edge.mk 2 3 [0, 1] ∈ (ofKernel tangledKernel).edges := by decide
  refine ⟨by decide, hnode 3 (by decide), ?_, ?_, hmem, (hbits _ hmem).2.1⟩
  · have hlead : Leads tangledKernel.operations 2 3 0 :=
      ((hbits _ hmem).2.2 0).mp (by decide)
    exact (hhas 2 (by decide) 3 (by decide)).mpr ⟨0, hlead⟩
  · rw [hhas 0 (by decide) 3 (by decide)]
    rintro ⟨q, hq⟩
    obtain ⟨op, hop, hqop⟩ := hq.source
    cases hop
    have hbetween : Uses tangledKernel.operations 2 q :=
      ⟨{ name := "CZ", bits := [1, 0] }, rfl, by simp [List.mem_singleton.mp hqop]⟩
    exact hq.between 2 (by decide) (by decide) hbetween

end QuantumKernels.DependencyGraph
