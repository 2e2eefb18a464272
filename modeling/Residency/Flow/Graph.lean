/-
Residency/Flow/Graph.lean

Flow graphs: nodes with the accesses that they make in order, and edges between nodes.
Back edges close loops; an analysis follows the forward edges.  Nodes and edges are kept in
the order in which they were added, parallel edges included.  Adding a node again replaces
its accesses and leaves its place and its edges alone.
-/
import Residency.Analysis

namespace Residency

/-- The kinds of edges. -/
inductive EdgeKind where
  | forward
  | back
deriving DecidableEq, Repr

/-- A node with its accesses. -/
structure Node where
  id : NodeId
  accesses : List Int
deriving DecidableEq, Repr

/-- An edge between two nodes. -/
structure Edge where
  source : NodeId
  target : NodeId
  kind : EdgeKind
deriving DecidableEq, Repr

/-- Is an edge of the kind that is asked for? -/
def Edge.isOf (e : Edge) (kind : Option EdgeKind) : Bool :=
  kind.all (· == e.kind)

/-- Nodes and edges in the order of their addition. -/
structure Graph where
  nodes : List Node
  edges : List Edge
deriving DecidableEq, Repr

namespace Graph

/-- The graph without nodes. -/
def empty : Graph :=
  ⟨[], []⟩

/-- The names of the nodes. -/
def ids (g : Graph) : List NodeId :=
  g.nodes.map fun n => n.id

/-- Is there a node of that name? -/
def has (g : Graph) (id : NodeId) : Bool :=
  g.nodes.any fun n => n.id == id

/-- The number of nodes. -/
def size (g : Graph) : Nat :=
  g.nodes.length

/-- Refuses a name that no node has. -/
def requireNode (g : Graph) (id : NodeId) : Except Fault Unit :=
  if g.has id then .ok () else refuse (.unknownNode id)

/-- The graph with a node added or replaced. -/
def insert (g : Graph) (node : Node) : Graph :=
  if g.has node.id then
    { g with nodes := g.nodes.map fun n => if n.id = node.id then node else n }
  else { g with nodes := g.nodes ++ [node] }

/-- Adds a node; a second addition is reported. -/
def withNode (g : Graph) (id : NodeId) (accesses : List Int) : Analysis Graph := do
  if g.has id then
    Analysis.note .warning .solver
      ("node " ++ id.text ++ " added twice, replacing its accesses")
  return g.insert ⟨id, accesses⟩

/-- Adds an edge between two nodes of the graph. -/
def withEdge (g : Graph) (source target : NodeId) (kind : EdgeKind) : Except Fault Graph := do
  g.requireNode source
  g.requireNode target
  return { g with edges := g.edges ++ [⟨source, target, kind⟩] }

/-- The accesses of a node; none if there is no such node. -/
def accessesOf (g : Graph) (id : NodeId) : List Int :=
  match g.nodes.find? fun n => n.id == id with
  | some n => n.accesses
  | none => []

/-- The accesses of a node of the graph. -/
def accesses (g : Graph) (id : NodeId) : Except Fault (List Int) := do
  g.requireNode id
  return g.accessesOf id

/-- The targets of the edges of a kind, or of all edges, that leave a node. -/
def targetsOf (g : Graph) (id : NodeId) (kind : Option EdgeKind) : List NodeId :=
  (g.edges.filter fun e => e.source == id && e.isOf kind).map fun e => e.target

/-- The sources of the edges of a kind, or of all edges, that enter a node. -/
def sourcesOf (g : Graph) (id : NodeId) (kind : Option EdgeKind) : List NodeId :=
  (g.edges.filter fun e => e.target == id && e.isOf kind).map fun e => e.source

/-- The targets of the edges that leave a node of the graph. -/
def successors (g : Graph) (id : NodeId) (kind : Option EdgeKind) : Except Fault (List NodeId) := do
  g.requireNode id
  return g.targetsOf id kind

/-- The sources of the edges that enter a node of the graph. -/
def predecessors (g : Graph) (id : NodeId) (kind : Option EdgeKind) :
    Except Fault (List NodeId) := do
  g.requireNode id
  return g.sourcesOf id kind

end Graph

end Residency
