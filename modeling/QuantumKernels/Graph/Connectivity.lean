import QuantumKernels.Kernel.Basic
/-!
Undirected weighted graphs: annealing problems and the hardware they run on. Vertices are numbered
as they are added; each pair of vertices has at most one edge. The numbers of vertices have 32 bits, and
the greatest of them is kept free, so there is room for `2 ^ 32 - 1` vertices and as many edges. A graph
here is one that has room for what is added to it: to add to a full one is a crash, like the end of memory.
-/

namespace QuantumKernels

namespace ConnectivityGraph

/-- An edge as it was first added, with its latest weight. -/
structure Edge where
  source : Nat
  target : Nat
  weight : Float
deriving DecidableEq, Repr

/-- Whether the edge joins these two, in either direction. -/
def Edge.joins (e : Edge) (a b : Nat) : Bool :=
  (e.source == a && e.target == b) || (e.source == b && e.target == a)

end ConnectivityGraph

structure ConnectivityGraph where
  /-- the attributes of each vertex -/
  vertices : List (Dictionary Parameter) := []
  /-- in order of first addition -/
  edges : List ConnectivityGraph.Edge := []
deriving DecidableEq, Repr

namespace ConnectivityGraph

def order (g : ConnectivityGraph) : Nat := g.vertices.length

def size (g : ConnectivityGraph) : Nat := g.edges.length

/-- Vertices without attributes or edges, as long as there is room for so many. -/
def ofOrder (n : Nat) : ConnectivityGraph := { vertices := List.replicate n ∅ }

def addVertex (g : ConnectivityGraph) (attributes : Dictionary Parameter) : ConnectivityGraph :=
  { g with vertices := g.vertices ++ [attributes] }

/-- Gives the edge between two vertices its weight; a new edge goes to the end. -/
def putEdge (a b : Nat) (weight : Float) : List Edge → List Edge
  | [] => [⟨a, b, weight⟩]
  | e :: rest => if e.joins a b then { e with weight } :: rest else e :: putEdge a b weight rest

def checkVertex (g : ConnectivityGraph) (v : Nat) : Except KernelError Unit :=
  if v < g.order then .ok () else .error (.outOfRange v g.order "connectivity graph")

def addEdge (g : ConnectivityGraph) (a b : Nat) (weight : Float) :
    Except KernelError ConnectivityGraph := do
  g.checkVertex a
  g.checkVertex b
  return { g with edges := putEdge a b weight g.edges }

/-- Vertices are looked up by the low 32 bits of a number. -/
def address (v : Nat) : Nat := v % 2 ^ 32

def attributes? (g : ConnectivityGraph) (v : Nat) : Option (Dictionary Parameter) :=
  g.vertices[address v]?

def weight? (g : ConnectivityGraph) (a b : Nat) : Option Float :=
  (g.edges.find? fun e => e.joins (address a) (address b)).map Edge.weight

def hasEdge (g : ConnectivityGraph) (a b : Nat) : Bool := (g.weight? a b).isSome

/-- The other end of an edge, seen from one of its ends. -/
def Edge.otherEnd? (e : Edge) (v : Nat) : Option Nat :=
  if e.source = v then some e.target else if e.target = v then some e.source else none

/-- The vertices joined to `v`, ascending. -/
def neighbors (g : ConnectivityGraph) (v : Nat) : List Nat :=
  ascending (g.edges.filterMap fun e => e.otherEnd? (address v))

/-- The edges, each with its smaller end first. -/
def edgeList (g : ConnectivityGraph) : List Edge :=
  g.edges.map fun e => ⟨min e.source e.target, max e.source e.target, e.weight⟩

def printVertex (v : Nat) (attributes : Dictionary Parameter) : String :=
  let shown := attributes.entries.map fun e => e.1 ++ "=" ++ e.2.print
  if shown.isEmpty then s!"  {v};\n" else s!"  {v} [" ++ ", ".intercalate shown ++ "];\n"

def Edge.print (e : Edge) : String :=
  s!"  {e.source} -- {e.target} [weight=" ++ Decimal.Layout.plain.render e.weight ++ "];\n"

/-- The graph as text, vertices before edges. -/
def print (g : ConnectivityGraph) : String :=
  "graph G \x7b\n"
    ++ String.join (g.vertices.mapIdx printVertex)
    ++ String.join (g.edgeList.map Edge.print)
    ++ "\x7d\n"

end ConnectivityGraph

end QuantumKernels
