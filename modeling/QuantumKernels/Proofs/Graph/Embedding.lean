import QuantumKernels.Graph.Embedding
import QuantumKernels.Proofs.Decimal.Natural
import QuantumKernels.Proofs.Graph.Annealing
import Mathlib.Logic.Relation

/-!
# Shifted placements are minors

A problem is placed on hardware by a shift exactly if the shift is a natural number and takes every vertex to a
vertex and every edge to an edge, whichever way round these were added. What is found then is a minor: each vertex
has a chain of its own, and the chains of neighbours are joined.
-/
namespace QuantumKernels

namespace ConnectivityGraph

/-- An edge joins the two, in whatever direction it was added. -/
def Adjacent (g : ConnectivityGraph) (a b : ℕ) : Prop := s(a, b) ∈ g.edges.map Edge.pair

instance (g : ConnectivityGraph) (a b : ℕ) : Decidable (g.Adjacent a b) :=
  inferInstanceAs (Decidable (s(a, b) ∈ g.edges.map Edge.pair))

/-- Edges join vertices, and there are no more vertices than can be looked up. -/
structure Sound (g : ConnectivityGraph) : Prop where
  room : g.order ≤ 2 ^ 32
  ends : ∀ a b, g.Adjacent a b → a < g.order ∧ b < g.order

variable {g : ConnectivityGraph} {m : WeightMap} {a b : ℕ}

theorem Adjacent.symm (h : g.Adjacent a b) : g.Adjacent b a := by
  rw [Adjacent, Sym2.eq_swap]
  exact h

/-- The edges are listed with the smaller end first, which is no matter for what they join. -/
theorem adjacent_iff_edgeList : g.Adjacent a b ↔ ∃ e ∈ g.edgeList, e.pair = s(a, b) := by
  rw [Adjacent, ← map_pair_edgeList, List.mem_map]

theorem Follows.adjacent_iff (h : g.Follows m) : g.Adjacent a b ↔ (m.weight s(a, b)).isSome := by
  rw [adjacent_iff_edgeList, Option.isSome_iff_exists]
  constructor
  · rintro ⟨e, he, hpair⟩
    obtain ⟨-, hweight⟩ := (h.edges e.source e.target e.weight).mp he
    exact ⟨e.weight, hpair ▸ hweight⟩
  · rintro ⟨w, hw⟩
    rcases Nat.le_total a b with hab | hab
    · exact ⟨⟨a, b, w⟩, (h.edges a b w).mpr ⟨hab, hw⟩, rfl⟩
    · rw [Sym2.eq_swap] at hw ⊢
      exact ⟨⟨b, a, w⟩, (h.edges b a w).mpr ⟨hab, hw⟩, rfl⟩

theorem ends_of_pair_eq {c d n : ℕ} (h : s(c, d) = s(a, b)) (hab : a < n ∧ b < n) : c < n ∧ d < n := by
  rcases Sym2.eq_iff.mp h with ⟨rfl, rfl⟩ | ⟨rfl, rfl⟩
  · exact hab
  · exact hab.symm

theorem sound_ofOrder {n : ℕ} (hroom : n ≤ 2 ^ 32) : (ofOrder n).Sound where
  room := by rwa [order, ofOrder, List.length_replicate]
  ends a b hab := by cases hab

/-- An edge is taken up between vertices only, so an addition leaves a graph sound if there is room. -/
theorem Sound.act (h : g.Sound) (x : Action) (hroom : (g.act x).order ≤ 2 ^ 32) : (g.act x).Sound := by
  refine ⟨hroom, fun c d hcd => ?_⟩
  cases x with
  | addVertex attributes =>
    obtain ⟨hc, hd⟩ := h.ends c d hcd
    have horder : (g.act (.addVertex attributes)).order = g.order + 1 := List.length_append
    omega
  | addEdge a b weight =>
    rw [act_addEdge] at hcd ⊢
    split_ifs at hcd ⊢ with hab
    · have hpairs : s(c, d) ∈ (putEdge a b weight g.edges).map Edge.pair := hcd
      rcases map_pair_putEdge a b weight g.edges with hsame | ⟨-, hlast⟩
      · rw [hsame] at hpairs
        exact h.ends c d hpairs
      · rw [hlast, List.mem_append, List.mem_singleton] at hpairs
        rcases hpairs with hold | hnew
        · exact h.ends c d hold
        · exact ends_of_pair_eq hnew hab
    · exact h.ends c d hcd

theorem order_le_run (g : ConnectivityGraph) (actions : List Action) : g.order ≤ (g.run actions).order := by
  rw [order, order, vertices_run, List.length_append]
  exact Nat.le_add_right _ _

/-- Whatever is added to a sound graph, it stays sound as long as there is room. -/
theorem Sound.run (h : g.Sound) (actions : List Action) (hroom : (g.run actions).order ≤ 2 ^ 32) :
    (g.run actions).Sound := by
  induction actions generalizing g with
  | nil => exact h
  | cons x rest ih => exact ih (h.act x ((order_le_run _ rest).trans hroom)) hroom

/-- The vertices of a sound graph are looked up as they are numbered. -/
theorem Sound.hasEdge_iff (h : g.Sound) (ha : a < g.order) (hb : b < g.order) :
    g.hasEdge a b = true ↔ g.Adjacent a b := by
  rw [hasEdge, weight?, Option.isSome_map, List.find?_isSome, address_of_lt (ha.trans_le h.room),
    address_of_lt (hb.trans_le h.room), Adjacent, List.mem_map]
  simp only [Edge.joins_iff]

end ConnectivityGraph

namespace Kernel

variable {k : Kernel} {g : ConnectivityGraph}

theorem drawn_of_connectivity (h : k.connectivity = .ok g) :
    refused? (k.biases ++ k.couplers) = none ∧ k.Drawn g := by
  have hcases := k.connectivity_cases
  cases hrefused : refused? (k.biases ++ k.couplers) with
  | some t =>
    rw [hrefused, h] at hcases
    cases hcases
  | none =>
    rw [hrefused] at hcases
    obtain ⟨g', hg', hdrawn⟩ := hcases
    obtain rfl : g = g' := Except.ok.inj (h.symm.trans hg')
    exact ⟨rfl, hdrawn⟩

/-- The edges of an annealing kernel are its couplers. -/
theorem adjacent_connectivity_iff (h : k.connectivity = .ok g) {a b : ℕ} :
    g.Adjacent a b ↔ ∃ t ∈ k.couplers, t.pair = s(a, b) := by
  obtain ⟨hreal, hdrawn⟩ := drawn_of_connectivity h
  rw [hdrawn.couplers.adjacent_iff, ← weightsAfter_couplers, weightsAfter_none, lastWeight]
  constructor
  · intro hweight
    obtain ⟨t, ht⟩ := Option.isSome_iff_exists.mp (Option.isSome_of_isSome_bind hweight)
    obtain ⟨hmem, hpair⟩ := List.mem_filter.mp (List.mem_of_getLast? ht)
    exact ⟨t, hmem, of_decide_eq_true hpair⟩
  · rintro ⟨t, ht, hpair⟩
    have hne : (k.couplers.filter fun t => decide (t.pair = s(a, b))) ≠ [] :=
      List.ne_nil_of_mem (List.mem_filter.mpr ⟨ht, decide_eq_true hpair⟩)
    obtain ⟨last, hlast⟩ := Option.isSome_iff_exists.mp (List.getLast?_isSome.mpr hne)
    have hmem := (List.mem_filter.mp (List.mem_of_getLast? hlast)).1
    have hweight := List.find?_eq_none.mp hreal last (List.mem_append_right _ hmem)
    rw [lastOn, hlast, Option.bind_some, Option.isSome_iff_ne_none]
    simpa using hweight

/-- The graph of an annealing kernel is sound if the bits of the kernel have room. -/
theorem sound_connectivity (h : k.connectivity = .ok g) (hroom : k.width ≤ 2 ^ 32) : g.Sound where
  room := (drawn_of_connectivity h).2.order ▸ hroom
  ends a b hab := by
    obtain ⟨t, ht, hpair⟩ := (adjacent_connectivity_iff h).mp hab
    rw [(drawn_of_connectivity h).2.order]
    exact ConnectivityGraph.ends_of_pair_eq hpair.symm (lt_width_of_mem_terms (List.mem_filter.mp ht).1)

end Kernel

namespace Embedding

open ConnectivityGraph Decimal

/-- The offset that the options ask for: a natural number, zero if none is given. -/
def AsksOffset (options : Dictionary String) (n : ℕ) : Prop :=
  match options.get? "offset" with
  | none => n = 0
  | some raw => IsNaturalText raw n

/-- A minor of the hardware: every vertex of the problem and nothing else has a chain, chains are connected
sets of vertices of the hardware, no two of them meet, and an edge joins those of neighbours. -/
structure IsMinor (problem hardware : ConnectivityGraph) (e : Embedding) : Prop where
  keys : e.map Prod.fst = List.range problem.order
  nonempty : ∀ v chain, (v, chain) ∈ e → chain ≠ []
  vertices : ∀ v chain, (v, chain) ∈ e → ∀ x ∈ chain, x < hardware.order
  connected : ∀ v chain, (v, chain) ∈ e → ∀ x ∈ chain, ∀ y ∈ chain,
    Relation.ReflTransGen (fun x y => y ∈ chain ∧ hardware.Adjacent x y) x y
  disjoint : ∀ v chain w chain', (v, chain) ∈ e → (w, chain') ∈ e → v ≠ w → chain.Disjoint chain'
  joined : ∀ v w, problem.Adjacent v w → ∃ chain chain', (v, chain) ∈ e ∧ (w, chain') ∈ e ∧
    ∃ x ∈ chain, ∃ y ∈ chain', hardware.Adjacent x y

/-- A shift takes vertices to vertices and edges to edges. -/
structure Fits (problem hardware : ConnectivityGraph) (n : ℕ) : Prop where
  room : problem.order + n ≤ hardware.order
  edges : ∀ a b, problem.Adjacent a b → hardware.Adjacent (a + n) (b + n)

/-- Every vertex alone on the one it is shifted to. -/
def shifted (order n : ℕ) : Embedding := (List.range order).map fun v => (v, [v + n])

variable {problem hardware : ConnectivityGraph} {options : Dictionary String} {e : Embedding} {n : ℕ}

theorem offset_eq_ok_iff : offset options = .ok n ↔ AsksOffset options n ∧ n < 2 ^ 64 := by
  rw [offset, AsksOffset]
  cases options.get? "offset" with
  | none =>
    rw [Except.ok.injEq]
    constructor
    · rintro rfl
      exact ⟨rfl, by decide⟩
    · exact fun h => h.1.symm
  | some raw =>
    have hread : readNatural 10 (2 ^ 64 - 1) (Text.trim raw).toList = .ok n ↔ IsNaturalText raw n ∧ n < 2 ^ 64 := by
      rw [readNatural_trim_eq_ok_iff, Nat.le_sub_one_iff_lt (by decide)]
    dsimp only
    rw [← hread]
    cases readNatural 10 (2 ^ 64 - 1) (Text.trim raw).toList with
    | error cause => exact iff_of_false nofun nofun
    | ok value => rw [Except.ok.injEq, Except.ok.injEq]

theorem mem_shifted_iff {order v : ℕ} {chain : List ℕ} :
    (v, chain) ∈ shifted order n ↔ v < order ∧ chain = [v + n] := by
  simp [shifted, eq_comm]

/-- The search goes through the listed edges only; it finds none without a coupler exactly if any two neighbours,
in either order, are shifted to neighbours. -/
theorem missing_eq_none_iff (hproblem : problem.Sound) (hhardware : hardware.Sound)
    (hroom : problem.order + n ≤ hardware.order) :
    problem.edgeList.find? (fun e => !hardware.hasEdge (e.source + n) (e.target + n)) = none ↔
      ∀ a b, problem.Adjacent a b → hardware.Adjacent (a + n) (b + n) := by
  have hcoupler : ∀ a b, problem.Adjacent a b →
      (hardware.hasEdge (a + n) (b + n) = true ↔ hardware.Adjacent (a + n) (b + n)) := fun a b hab => by
    obtain ⟨ha, hb⟩ := hproblem.ends a b hab
    exact hhardware.hasEdge_iff (by omega) (by omega)
  have hlisted : ∀ e ∈ problem.edgeList, problem.Adjacent e.source e.target := fun e he =>
    adjacent_iff_edgeList.mpr ⟨e, he, rfl⟩
  rw [List.find?_eq_none]
  simp only [Bool.not_eq_true', Bool.not_eq_false]
  constructor
  · intro hall a b hab
    obtain ⟨e, he, hpair⟩ := adjacent_iff_edgeList.mp hab
    have hshifted := (hcoupler _ _ (hlisted e he)).mp (hall e he)
    rcases Sym2.eq_iff.mp hpair with ⟨rfl, rfl⟩ | ⟨rfl, rfl⟩
    · exact hshifted
    · exact hshifted.symm
  · intro hall e he
    have hadjacent := hlisted e he
    exact (hcoupler _ _ hadjacent).mpr (hall _ _ hadjacent)

/-- A shift is found exactly if it is asked for and fits. -/
theorem shift_eq_ok_iff (hproblem : problem.Sound) (hhardware : hardware.Sound) :
    shift problem hardware options = .ok e ↔
      ∃ n, AsksOffset options n ∧ Fits problem hardware n ∧ e = shifted problem.order n := by
  rw [shift, bind_eq_ok_iff]
  constructor
  · rintro ⟨n, hoffset, hplaced⟩
    split_ifs at hplaced with hsize
    have hroom := not_lt.mp hsize
    split at hplaced
    · cases hplaced
    · rename_i hnone
      exact ⟨n, (offset_eq_ok_iff.mp hoffset).1, ⟨hroom, (missing_eq_none_iff hproblem hhardware hroom).mp hnone⟩,
        (Except.ok.inj hplaced).symm⟩
  · rintro ⟨n, hasks, hfits, rfl⟩
    have hroom := hfits.room
    -- an offset beyond all words is beyond all vertices
    have hword : n < 2 ^ 64 := by
      have hbound := hhardware.room
      omega
    refine ⟨n, offset_eq_ok_iff.mpr ⟨hasks, hword⟩, ?_⟩
    rw [if_neg (not_lt.mpr hroom), (missing_eq_none_iff hproblem hhardware hroom).mpr hfits.edges]
    rfl

theorem isMinor_shifted (hproblem : problem.Sound) (h : Fits problem hardware n) :
    IsMinor problem hardware (shifted problem.order n) where
  keys := by simp [shifted, Function.comp_def]
  nonempty v chain hv := by
    rw [(mem_shifted_iff.mp hv).2]
    exact List.cons_ne_nil _ _
  vertices v chain hv x hx := by
    obtain ⟨hlt, rfl⟩ := mem_shifted_iff.mp hv
    rw [List.mem_singleton.mp hx]
    exact (Nat.add_lt_add_right hlt n).trans_le h.room
  connected v chain hv x hx y hy := by
    obtain ⟨-, rfl⟩ := mem_shifted_iff.mp hv
    rw [List.mem_singleton.mp hx, List.mem_singleton.mp hy]
  disjoint v chain w chain' hv hw hne := by
    obtain ⟨-, rfl⟩ := mem_shifted_iff.mp hv
    obtain ⟨-, rfl⟩ := mem_shifted_iff.mp hw
    rw [List.disjoint_singleton, List.mem_singleton]
    omega
  joined v w hvw := by
    obtain ⟨hv, hw⟩ := hproblem.ends v w hvw
    exact ⟨[v + n], [w + n], mem_shifted_iff.mpr ⟨hv, rfl⟩, mem_shifted_iff.mpr ⟨hw, rfl⟩, v + n,
      List.mem_singleton_self _, w + n, List.mem_singleton_self _, h.edges v w hvw⟩

/-- A problem is placed exactly if no offset is given or it is a natural number, and that shift takes every vertex
of the problem to a vertex of the hardware and any two neighbours to neighbours. Whatever is returned is a minor
of the hardware. -/
theorem shift_finds_minor (hproblem : problem.Sound) (hhardware : hardware.Sound) (options : Dictionary String) :
    ((∃ e, shift problem hardware options = .ok e) ↔ ∃ n, AsksOffset options n ∧
      problem.order + n ≤ hardware.order ∧ ∀ a b, problem.Adjacent a b → hardware.Adjacent (a + n) (b + n)) ∧
    ∀ e, shift problem hardware options = .ok e → IsMinor problem hardware e := by
  constructor
  · constructor
    · rintro ⟨e, he⟩
      obtain ⟨n, hasks, hfits, -⟩ := (shift_eq_ok_iff hproblem hhardware).mp he
      exact ⟨n, hasks, hfits.room, hfits.edges⟩
    · rintro ⟨n, hasks, hroom, hedges⟩
      exact ⟨_, (shift_eq_ok_iff hproblem hhardware).mpr ⟨n, hasks, ⟨hroom, hedges⟩, rfl⟩⟩
  · intro e he
    obtain ⟨n, -, hfits, rfl⟩ := (shift_eq_ok_iff hproblem hhardware).mp he
    exact isMinor_shifted hproblem hfits

/-- An annealing kernel is placed exactly if the shift that is asked for takes its bits to vertices and its
couplers to edges. -/
theorem shift_connectivity_eq_ok_iff {k : Kernel} (hk : k.connectivity = .ok problem) (hroom : k.width ≤ 2 ^ 32)
    (hhardware : hardware.Sound) : shift problem hardware options = .ok e ↔
      ∃ n, AsksOffset options n ∧ k.width + n ≤ hardware.order ∧
        (∀ t ∈ k.couplers, hardware.Adjacent (t.first + n) (t.second + n)) ∧ e = shifted k.width n := by
  have horder : problem.order = k.width := (Kernel.drawn_of_connectivity hk).2.order
  have hedges : ∀ n, (∀ a b, problem.Adjacent a b → hardware.Adjacent (a + n) (b + n)) ↔
      ∀ t ∈ k.couplers, hardware.Adjacent (t.first + n) (t.second + n) := by
    intro n
    constructor
    · exact fun hall t ht => hall _ _ ((Kernel.adjacent_connectivity_iff hk).mpr ⟨t, ht, rfl⟩)
    · intro hall a b hab
      obtain ⟨t, ht, hpair⟩ := (Kernel.adjacent_connectivity_iff hk).mp hab
      rcases Sym2.eq_iff.mp hpair with ⟨rfl, rfl⟩ | ⟨rfl, rfl⟩
      · exact hall t ht
      · exact (hall t ht).symm
  rw [shift_eq_ok_iff (Kernel.sound_connectivity hk hroom) hhardware]
  constructor
  · rintro ⟨n, hasks, hfits, rfl⟩
    exact ⟨n, hasks, horder ▸ hfits.room, (hedges n).mp hfits.edges, by rw [horder]⟩
  · rintro ⟨n, hasks, hplaces, hall, rfl⟩
    exact ⟨n, hasks, ⟨horder.symm ▸ hplaces, (hedges n).mpr hall⟩, by rw [horder]⟩

/-- Three vertices in a row, with edges that were added from the larger end. -/
def reversedPath : ConnectivityGraph := (ofOrder 3).run [.addEdge 1 0 1, .addEdge 2 1 1]

/-- Five vertices, the last three in a row. -/
def lateRow : ConnectivityGraph := (ofOrder 5).run [.addEdge 2 3 1, .addEdge 4 3 1]

/-- A row finds its place by an offset with a sign and blanks; with an offset of one an edge is missing. -/
theorem shift_finds_minor_reversedPath : reversedPath.Sound ∧ lateRow.Sound ∧
    (∃ e, shift reversedPath lateRow (.ofList [("offset", " +2\n")]) = .ok e ∧ IsMinor reversedPath lateRow e) ∧
      ¬ ∃ e, shift reversedPath lateRow (.ofList [("offset", "1")]) = .ok e := by
  have hproblem : reversedPath.Sound := (sound_ofOrder (by decide)).run _ (by decide)
  have hhardware : lateRow.Sound := (sound_ofOrder (by decide)).run _ (by decide)
  have hplaced := shift_finds_minor hproblem hhardware (.ofList [("offset", " +2\n")])
  have hmissing := shift_finds_minor hproblem hhardware (.ofList [("offset", "1")])
  have htwo : AsksOffset (.ofList [("offset", " +2\n")]) 2 := (offset_eq_ok_iff.mp (by decide)).1
  have hedges : ∀ a b, reversedPath.Adjacent a b → lateRow.Adjacent (a + 2) (b + 2) := fun a b hab => by
    obtain ⟨ha, hb⟩ := hproblem.ends a b hab
    have hall : ∀ a < 3, ∀ b < 3, reversedPath.Adjacent a b → lateRow.Adjacent (a + 2) (b + 2) := by decide
    exact hall a ha b hb hab
  refine ⟨hproblem, hhardware, ?_, ?_⟩
  · obtain ⟨e, he⟩ := hplaced.1.mpr ⟨2, htwo, by decide, hedges⟩
    exact ⟨e, he, hplaced.2 e he⟩
  · rw [hmissing.1]
    rintro ⟨n, hasks, hroom, hedges⟩
    have hsmall : n ≤ 2 := Nat.le_of_add_le_add_left hroom
    have hone : offset (.ofList [("offset", "1")]) = .ok 1 := by decide
    have hn := offset_eq_ok_iff.mpr ⟨hasks, by omega⟩
    obtain rfl : 1 = n := Except.ok.inj (hone.symm.trans hn)
    exact absurd (hedges 0 1 (by decide)) (by decide)

end Embedding

end QuantumKernels
