import QuantumKernels.Graph.Connectivity
import QuantumKernels.Proofs.Tree
import Mathlib.Data.List.Nodup
import Mathlib.Data.Sym.Sym2
import Mathlib.Tactic.Common

/-!
# A connectivity graph is a weight map

After any additions a graph holds one edge for each unordered pair that has a weight, with the
weight it was given last. Edges and vertices are listed as the map says. Questions about a pair look
its ends up by their low 32 bits, so they are answered as the map says unless a number is beyond
these and its low bits are those of an end of an edge.
-/
namespace QuantumKernels.ConnectivityGraph

/-- What is added to a graph. -/
inductive Action where
  | addVertex (attributes : Dictionary Parameter)
  | addEdge (a b : ℕ) (weight : Float)

def Action.attributes? : Action → Option (Dictionary Parameter)
  | addVertex attributes => some attributes
  | addEdge .. => none

/-- An edge that is refused leaves the graph as it is. -/
def act (g : ConnectivityGraph) : Action → ConnectivityGraph
  | .addVertex attributes => g.addVertex attributes
  | .addEdge a b weight => (g.addEdge a b weight).toOption.getD g

def run (g : ConnectivityGraph) (actions : List Action) : ConnectivityGraph := actions.foldl act g

/-- How many vertices there are, and the weights of unordered pairs of them. -/
structure WeightMap where
  order : ℕ := 0
  weight : Sym2 ℕ → Option Float := fun _ => none

namespace WeightMap

/-- The latest weight of a pair goes over an earlier one. -/
def put (m : WeightMap) (a b : ℕ) (weight : Float) : WeightMap :=
  { m with weight := fun p => if s(a, b) = p then some weight else m.weight p }

theorem weight_put (m : WeightMap) (a b : ℕ) (weight : Float) (p : Sym2 ℕ) :
    (m.put a b weight).weight p = if s(a, b) = p then some weight else m.weight p := rfl

/-- A pair without a vertex gets no weight. -/
def act (m : WeightMap) : Action → WeightMap
  | .addVertex _ => { m with order := m.order + 1 }
  | .addEdge a b weight => if a < m.order ∧ b < m.order then m.put a b weight else m

def run (m : WeightMap) (actions : List Action) : WeightMap := actions.foldl act m

end WeightMap

def Edge.pair (e : Edge) : Sym2 ℕ := s(e.source, e.target)

theorem Edge.joins_iff {e : Edge} {a b : ℕ} : e.joins a b = true ↔ e.pair = s(a, b) := by
  simp [joins, pair]

theorem addEdge_of_lt {g : ConnectivityGraph} {a b : ℕ} (h : a < g.order ∧ b < g.order) (weight : Float) :
    g.addEdge a b weight = .ok { g with edges := putEdge a b weight g.edges } := by
  simp [addEdge, checkVertex, h, pure, Except.pure, bind, Except.bind]

/-- The first end that is no vertex is named. -/
theorem addEdge_of_not_lt {g : ConnectivityGraph} {a b : ℕ} (h : ¬ (a < g.order ∧ b < g.order))
    (weight : Float) : g.addEdge a b weight =
      .error (.outOfRange (if a < g.order then b else a) g.order "connectivity graph") := by
  by_cases ha : a < g.order
  · have hb : ¬ b < g.order := fun hb => h ⟨ha, hb⟩
    simp [addEdge, checkVertex, ha, hb, bind, Except.bind]
  · simp [addEdge, checkVertex, ha, bind, Except.bind]

section

variable {a b : ℕ} {weight : Float} {edges : List Edge}

/-- The weight that a list of edges gives a pair. -/
def weightIn (edges : List Edge) (p : Sym2 ℕ) : Option Float :=
  (edges.find? fun e => decide (e.pair = p)).map Edge.weight

theorem weightIn_cons (e : Edge) (edges : List Edge) (p : Sym2 ℕ) :
    weightIn (e :: edges) p = if e.pair = p then some e.weight else weightIn edges p := by
  rw [weightIn, List.find?_cons]
  by_cases h : e.pair = p <;> simp [h, weightIn]

theorem weightIn_putEdge (a b : ℕ) (weight : Float) (edges : List Edge) (p : Sym2 ℕ) :
    weightIn (putEdge a b weight edges) p = if s(a, b) = p then some weight else weightIn edges p := by
  induction edges with
  | nil => exact weightIn_cons ⟨a, b, weight⟩ [] p
  | cons e rest ih =>
    rw [putEdge]
    by_cases he : e.pair = s(a, b)
    · have hpair : ({ e with weight } : Edge).pair = s(a, b) := he
      rw [if_pos (Edge.joins_iff.mpr he), weightIn_cons, weightIn_cons, hpair, he]
      split_ifs <;> rfl
    · rw [if_neg (mt Edge.joins_iff.mp he), weightIn_cons, weightIn_cons, ih]
      split_ifs with hfirst hput
      · exact absurd (hfirst.trans hput.symm) he
      · rfl
      · rfl
      · rfl

/-- An edge that is there keeps its place, a new one comes last. -/
theorem map_pair_putEdge (a b : ℕ) (weight : Float) (edges : List Edge) :
    (putEdge a b weight edges).map Edge.pair = edges.map Edge.pair ∨
      s(a, b) ∉ edges.map Edge.pair ∧
        (putEdge a b weight edges).map Edge.pair = edges.map Edge.pair ++ [s(a, b)] := by
  induction edges with
  | nil => exact .inr ⟨List.not_mem_nil, rfl⟩
  | cons e rest ih =>
    rw [putEdge]
    by_cases he : e.pair = s(a, b)
    · rw [if_pos (Edge.joins_iff.mpr he)]
      exact .inl rfl
    · rw [if_neg (mt Edge.joins_iff.mp he)]
      rcases ih with hsame | ⟨hnew, hlast⟩
      · exact .inl (congrArg (e.pair :: ·) hsame)
      · refine .inr ⟨?_, congrArg (e.pair :: ·) hlast⟩
        rw [List.map_cons, List.mem_cons, not_or]
        exact ⟨Ne.symm he, hnew⟩

theorem nodup_pair_putEdge (h : (edges.map Edge.pair).Nodup) :
    ((putEdge a b weight edges).map Edge.pair).Nodup := by
  rcases map_pair_putEdge a b weight edges with hsame | ⟨hnew, hlast⟩
  · rw [hsame]
    exact h
  · rw [hlast]
    exact List.nodup_append.mpr ⟨h, List.nodup_singleton _, fun p hp q hq => by
      rw [List.mem_singleton.mp hq]
      rintro rfl
      exact hnew hp⟩

/-- Among edges of different pairs, the one of a pair is the one that has its weight. -/
theorem weightIn_eq_some_iff (h : (edges.map Edge.pair).Nodup) {p : Sym2 ℕ} :
    weightIn edges p = some weight ↔ ∃ e ∈ edges, e.pair = p ∧ e.weight = weight := by
  induction edges with
  | nil => simp [weightIn]
  | cons e rest ih =>
    obtain ⟨hfirst, hrest⟩ := List.nodup_cons.mp h
    rw [weightIn_cons]
    split_ifs with he
    · constructor
      · intro hweight
        exact ⟨e, List.mem_cons_self, he, Option.some.inj hweight⟩
      · rintro ⟨d, hd, hpair, rfl⟩
        rcases List.mem_cons.mp hd with rfl | hd
        · rfl
        · exact absurd (List.mem_map.mpr ⟨d, hd, hpair.trans he.symm⟩) hfirst
    · rw [ih hrest]
      constructor
      · rintro ⟨d, hd, hpair⟩
        exact ⟨d, List.mem_cons_of_mem e hd, hpair⟩
      · rintro ⟨d, hd, hpair, hweight⟩
        rcases List.mem_cons.mp hd with rfl | hd
        · exact absurd hpair he
        · exact ⟨d, hd, hpair, hweight⟩

end

/-- The graph holds the weights of the map: one edge for each pair that has one. -/
structure Holds (g : ConnectivityGraph) (m : WeightMap) : Prop where
  order : g.order = m.order
  weights : ∀ p, weightIn g.edges p = m.weight p
  distinct : (g.edges.map Edge.pair).Nodup
  /-- the ends of every edge are vertices -/
  ends : ∀ a b, (m.weight s(a, b)).isSome → a < m.order ∧ b < m.order

theorem holds_empty : ({} : ConnectivityGraph).Holds {} :=
  ⟨rfl, fun _ => rfl, List.nodup_nil, fun _ _ h => by cases h⟩

theorem act_addEdge (g : ConnectivityGraph) (a b : ℕ) (weight : Float) : g.act (.addEdge a b weight) =
    if a < g.order ∧ b < g.order then { g with edges := putEdge a b weight g.edges } else g := by
  split_ifs with h
  · rw [act, addEdge_of_lt h]
    rfl
  · rw [act, addEdge_of_not_lt h]
    rfl

theorem Holds.act {g : ConnectivityGraph} {m : WeightMap} (h : g.Holds m) (x : Action) :
    (g.act x).Holds (m.act x) := by
  cases x with
  | addVertex attributes =>
    refine ⟨?_, h.weights, h.distinct, fun a b hab => ?_⟩
    · have hlength : (g.act (.addVertex attributes)).order = g.order + 1 := List.length_append
      rw [hlength, h.order]
      rfl
    · obtain ⟨ha, hb⟩ := h.ends a b hab
      exact ⟨Nat.lt_succ_of_lt ha, Nat.lt_succ_of_lt hb⟩
  | addEdge a b weight =>
    rw [act_addEdge, h.order, WeightMap.act]
    by_cases hab : a < m.order ∧ b < m.order
    · rw [if_pos hab, if_pos hab]
      refine ⟨h.order, fun p => ?_, nodup_pair_putEdge h.distinct, fun c d hcd => ?_⟩
      · rw [weightIn_putEdge, h.weights, WeightMap.weight_put]
      · rw [WeightMap.weight_put] at hcd
        split_ifs at hcd with hpair
        · rcases Sym2.eq_iff.mp hpair with ⟨rfl, rfl⟩ | ⟨rfl, rfl⟩
          · exact hab
          · exact hab.symm
        · exact h.ends c d hcd
    · rw [if_neg hab, if_neg hab]
      exact h

theorem holds_run {g : ConnectivityGraph} {m : WeightMap} (h : g.Holds m) (actions : List Action) :
    (g.run actions).Holds (m.run actions) := by
  induction actions generalizing g m with
  | nil => exact h
  | cons x rest ih => exact ih (h.act x)

/-- Vertices are numbered in the order in which they are added. -/
theorem vertices_run (g : ConnectivityGraph) (actions : List Action) :
    (g.run actions).vertices = g.vertices ++ actions.filterMap Action.attributes? := by
  induction actions generalizing g with
  | nil => exact (List.append_nil _).symm
  | cons x rest ih =>
    refine (ih (g.act x)).trans ?_
    cases x with
    | addVertex attributes => exact List.append_assoc g.vertices [attributes] _
    | addEdge a b weight =>
      rw [act_addEdge]
      split_ifs <;> rfl

theorem Edge.otherEnd?_eq_some_iff {e : Edge} {u v : ℕ} : e.otherEnd? v = some u ↔ e.pair = s(v, u) := by
  rw [otherEnd?, pair, Sym2.eq_iff]
  split_ifs with hsource htarget
  · constructor
    · intro h
      exact .inl ⟨hsource, Option.some.inj h⟩
    · rintro (⟨-, htarget⟩ | ⟨rfl, rfl⟩)
      · exact congrArg some htarget
      · exact congrArg some hsource.symm
  · constructor
    · intro h
      exact .inr ⟨Option.some.inj h, htarget⟩
    · rintro (⟨hv, -⟩ | ⟨hu, -⟩)
      · exact absurd hv hsource
      · exact congrArg some hu
  · constructor
    · intro h
      cases h
    · rintro (⟨hv, -⟩ | ⟨-, hv⟩)
      · exact absurd hv hsource
      · exact absurd hv htarget

/-- The edge with its smaller end first. -/
def Edge.ordered (e : Edge) : Edge := ⟨min e.source e.target, max e.source e.target, e.weight⟩

theorem Edge.pair_ordered (e : Edge) : e.ordered.pair = e.pair := by
  rcases Nat.le_total e.source e.target with h | h
  · simp [ordered, pair, h]
  · simp [ordered, pair, h, Sym2.eq_swap]

theorem Edge.eq_ordered_iff {a b : ℕ} {weight : Float} {e : Edge} (h : a ≤ b) :
    e.ordered = ⟨a, b, weight⟩ ↔ e.pair = s(a, b) ∧ e.weight = weight := by
  constructor
  · intro he
    have hpair := congrArg Edge.pair he
    rw [pair_ordered] at hpair
    exact ⟨hpair, congrArg Edge.weight he⟩
  · rintro ⟨hpair, rfl⟩
    rcases Sym2.eq_iff.mp hpair with ⟨rfl, rfl⟩ | ⟨rfl, rfl⟩
    · simp [ordered, h]
    · simp [ordered, h]

section

variable {g : ConnectivityGraph} {m : WeightMap}

theorem Holds.weight?_eq (h : g.Holds m) (a b : ℕ) :
    g.weight? a b = m.weight s(address a, address b) := by
  rw [← h.weights, weight?, weightIn]
  congr 2
  funext e
  rw [Bool.eq_iff_iff, decide_eq_true_eq, Edge.joins_iff]

theorem Holds.mem_neighbors_iff (h : g.Holds m) (u v : ℕ) :
    u ∈ g.neighbors v ↔ (m.weight s(address v, u)).isSome := by
  rw [neighbors, mem_ascending, List.mem_filterMap, ← h.weights, Option.isSome_iff_exists]
  simp only [Edge.otherEnd?_eq_some_iff, weightIn_eq_some_iff h.distinct]
  constructor
  · rintro ⟨e, he, hpair⟩
    exact ⟨e.weight, e, he, hpair, rfl⟩
  · rintro ⟨_, e, he, hpair, -⟩
    exact ⟨e, he, hpair⟩

theorem Holds.mem_edgeList_iff (h : g.Holds m) (a b : ℕ) (weight : Float) :
    ⟨a, b, weight⟩ ∈ g.edgeList ↔ a ≤ b ∧ m.weight s(a, b) = some weight := by
  have hlist : g.edgeList = g.edges.map Edge.ordered := rfl
  rw [hlist, List.mem_map, ← h.weights, weightIn_eq_some_iff h.distinct]
  constructor
  · rintro ⟨e, he, hordered⟩
    have hab : a ≤ b := by
      have hends := Edge.mk.inj hordered
      omega
    exact ⟨hab, e, he, (Edge.eq_ordered_iff hab).mp hordered⟩
  · rintro ⟨hab, e, he, hpair⟩
    exact ⟨e, he, (Edge.eq_ordered_iff hab).mpr hpair⟩

theorem map_pair_edgeList (g : ConnectivityGraph) : g.edgeList.map Edge.pair = g.edges.map Edge.pair := by
  rw [edgeList, List.map_map]
  exact List.map_congr_left fun e _ => e.pair_ordered

theorem Holds.nodup_edgeList (h : g.Holds m) : (g.edgeList.map Edge.pair).Nodup := by
  rw [map_pair_edgeList]
  exact h.distinct

/-- The graph is listed as the map says, and takes up an edge between vertices only. -/
structure Follows (g : ConnectivityGraph) (m : WeightMap) : Prop where
  order : g.order = m.order
  addEdge : ∀ a b weight, if a < m.order ∧ b < m.order then ∃ g', g.addEdge a b weight = .ok g' else
    g.addEdge a b weight =
      .error (.outOfRange (if a < m.order then b else a) m.order "connectivity graph")
  neighbors : ∀ v, (g.neighbors v).Pairwise (· < ·)
  edges : ∀ a b weight, ⟨a, b, weight⟩ ∈ g.edgeList ↔ a ≤ b ∧ m.weight s(a, b) = some weight
  once : (g.edgeList.map Edge.pair).Nodup
  size : g.size = g.edgeList.length

theorem Holds.follows (h : g.Holds m) : g.Follows m where
  order := h.order
  addEdge a b weight := by
    rw [← h.order]
    by_cases hab : a < g.order ∧ b < g.order
    · rw [if_pos hab]
      exact ⟨_, addEdge_of_lt hab weight⟩
    · rw [if_neg hab]
      exact addEdge_of_not_lt hab weight
  neighbors _ := pairwise_ascending _
  edges := h.mem_edgeList_iff
  once := h.nodup_edgeList
  size := (List.length_map _).symm

/-- The questions about two numbers are answered as the map says of their pair. -/
structure Answers (g : ConnectivityGraph) (m : WeightMap) (a b : ℕ) : Prop where
  weight : g.weight? a b = m.weight s(a, b)
  hasEdge : g.hasEdge a b = (m.weight s(a, b)).isSome
  neighbors : b ∈ g.neighbors a ↔ (m.weight s(a, b)).isSome

theorem address_of_lt {v : ℕ} (h : v < 2 ^ 32) : address v = v := Nat.mod_eq_of_lt h

/-- A number beyond all vertices is an end of nothing. -/
theorem Holds.weight_eq_none (h : g.Holds m) {a b : ℕ} (hab : ¬ (a < m.order ∧ b < m.order)) :
    m.weight s(a, b) = none := by
  rw [← Option.not_isSome_iff_eq_none]
  exact mt (h.ends a b) hab

theorem Holds.answers_iff (h : g.Holds m) (hroom : m.order ≤ 2 ^ 32) (a b : ℕ) :
    g.Answers m a b ↔ a < 2 ^ 32 ∧ b < 2 ^ 32 ∨ m.weight s(address a, address b) = none := by
  by_cases hab : a < 2 ^ 32 ∧ b < 2 ^ 32
  · refine iff_of_true ⟨?_, ?_, ?_⟩ (.inl hab)
    · rw [h.weight?_eq, address_of_lt hab.1, address_of_lt hab.2]
    · rw [ConnectivityGraph.hasEdge, h.weight?_eq, address_of_lt hab.1, address_of_lt hab.2]
    · rw [h.mem_neighbors_iff, address_of_lt hab.1]
  · have hnone : m.weight s(a, b) = none := by
      refine h.weight_eq_none fun hlt => hab ?_
      exact ⟨Nat.lt_of_lt_of_le hlt.1 hroom, Nat.lt_of_lt_of_le hlt.2 hroom⟩
    constructor
    · intro hanswers
      exact .inr ((h.weight?_eq a b).symm.trans (hanswers.weight.trans hnone))
    · intro hcase
      have haddress := hcase.resolve_left hab
      refine ⟨?_, ?_, ?_⟩
      · rw [h.weight?_eq, haddress, hnone]
      · rw [ConnectivityGraph.hasEdge, h.weight?_eq, haddress, hnone]
      · -- what is beyond all vertices is no neighbour either
        rw [h.mem_neighbors_iff, hnone]
        by_cases hb : b < 2 ^ 32
        · rw [← address_of_lt hb, haddress]
        · rw [h.weight_eq_none fun hlt => hb (Nat.lt_of_lt_of_le hlt.2 hroom)]

end

/-- After every sequence of additions a graph follows the weight map that the same additions make:
an edge between vertices is taken up, any other is refused with the first end that is no vertex;
vertices are numbered in the order of their addition; each pair with a weight is listed once,
smaller end first. Questions about two numbers are answered as the map says of their pair exactly if
both are below `2 ^ 32` or their low 32 bits are not joined. -/
theorem graph_follows_weight_map (actions : List Action) :
    let g : ConnectivityGraph := run {} actions
    let m : WeightMap := WeightMap.run {} actions
    g.Follows m ∧ g.vertices = actions.filterMap Action.attributes? ∧
      (m.order ≤ 2 ^ 32 → ∀ a b, g.Answers m a b ↔
        a < 2 ^ 32 ∧ b < 2 ^ 32 ∨ m.weight s(address a, address b) = none) := by
  intro g m
  have hholds : g.Holds m := holds_run holds_empty actions
  exact ⟨hholds.follows, vertices_run {} actions, hholds.answers_iff⟩

/-- The number `2 ^ 32` is no vertex, and is taken for the first. -/
theorem graph_follows_weight_map_farNumber :
    let actions : List Action := [.addVertex ∅, .addVertex ∅, .addEdge 1 0 1.5, .addEdge (2 ^ 32) 1 2]
    let g : ConnectivityGraph := run {} actions
    let m : WeightMap := WeightMap.run {} actions
    g.Follows m ∧ g.edges = [⟨1, 0, 1.5⟩] ∧ g.Answers m 0 1 ∧ g.Answers m 0 5 ∧ ¬ g.Answers m (2 ^ 32) 1 ∧
      g.weight? (2 ^ 32) 1 = some 1.5 ∧ m.weight s(2 ^ 32, 1) = none := by
  intro actions g m
  obtain ⟨hfollows, -, hanswers⟩ := graph_follows_weight_map actions
  have hanswers := hanswers (by decide)
  have haddress : m.weight s(address (2 ^ 32), address 1) = some 1.5 := rfl
  refine ⟨hfollows, rfl, (hanswers 0 1).mpr (.inl (by decide)), (hanswers 0 5).mpr (.inl (by decide)), ?_, rfl, rfl⟩
  rw [hanswers, haddress]
  decide

end QuantumKernels.ConnectivityGraph
