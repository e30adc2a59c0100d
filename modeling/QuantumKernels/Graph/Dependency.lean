import QuantumKernels.Kernel.Basic
/-!
The dependency graph of a gate kernel. Its nodes are the operations that take part, by position;
an edge leads from an operation to the next one on one of its bits and carries those bits.
-/

namespace QuantumKernels

namespace DependencyGraph

structure Edge where
  source : Nat
  target : Nat
  bits : List Nat
deriving DecidableEq, Repr

end DependencyGraph

structure DependencyGraph where
  operations : List Operation
  /-- in order of creation, at most one between two nodes -/
  edges : List DependencyGraph.Edge
deriving DecidableEq, Repr

namespace DependencyGraph

/-- Adds a bit to the edge from `source`, or a new edge if there is none. -/
def addBit (source target bit : Nat) : List Edge → List Edge
  | [] => [⟨source, target, [bit]⟩]
  | e :: rest =>
    if e.source = source then { e with bits := e.bits ++ [bit] } :: rest
    else e :: addBit source target bit rest

/-- The edges into a node, and the last node on each bit, after some of the node's bits. -/
structure Entry where
  incoming : List Edge
  last : List (Nat × Nat)

/-- The node takes over a bit from the last node on it; a bit it has already brings no edge. -/
def Entry.step (node : Nat) (s : Entry) (bit : Nat) : Entry :=
  let incoming := match s.last.lookup bit with
    | some earlier => if earlier = node then s.incoming else addBit earlier node bit s.incoming
    | none => s.incoming
  ⟨incoming, (bit, node) :: s.last⟩

/-- The edges of the operations from position `node` on. -/
def edgesFrom (node : Nat) (last : List (Nat × Nat)) : List Operation → List Edge
  | [] => []
  | op :: rest =>
    let s := op.bits.foldl (Entry.step node) ⟨[], last⟩
    s.incoming ++ edgesFrom (node + 1) s.last rest

def ofOperations (ops : List Operation) : DependencyGraph := ⟨ops, edgesFrom 0 [] ops⟩

def ofKernel (k : Kernel) : DependencyGraph := ofOperations k.operations

/-- The lengths of the longest paths that end at the first nodes, node by node. -/
def levels (edges : List Edge) : (nodes : Nat) → List Nat
  | 0 => []
  | n + 1 =>
    let earlier := levels edges n
    let before := (edges.filter fun e => e.target == n).map fun e => earlier.getD e.source 0
    earlier ++ [before.foldl max 0 + 1]

/-- The number of operations on the longest path. -/
def depth (g : DependencyGraph) : Nat := (levels g.edges g.operations.length).foldl max 0

/-- Nodes are addressed by the low 32 bits of a number. -/
def address (n : Nat) : Nat := n % 2 ^ 32

def hasEdge (g : DependencyGraph) (source target : Nat) : Bool :=
  g.edges.any fun e => e.source == address source && e.target == address target

/-- The operation at a node, with its position. -/
def node? (g : DependencyGraph) (n : Nat) : Option (Nat × Operation) :=
  g.operations[address n]?.map fun op => (address n, op)

def printNode (n : Nat) (op : Operation) : String := s!"  {n} [label=\"" ++ op.print ++ "\"];\n"

def Edge.print (e : Edge) : String :=
  s!"  {e.source} -> {e.target} [bits=\"" ++ ",".intercalate (e.bits.map toString) ++ "\"];\n"

/-- The graph as text, nodes before edges. -/
def print (g : DependencyGraph) : String :=
  "digraph G \x7b\n"
    ++ String.join (g.operations.mapIdx printNode)
    ++ String.join (g.edges.map Edge.print)
    ++ "\x7d\n"

end DependencyGraph

end QuantumKernels
