/-
Residency/Flow/Adjacency.lean

Adjacency tables: a flow graph kept as a table of accesses and two tables of edges, by
source and by target.  A call that builds the graph changes the tables in place, one after
the other, and where it fails the tables stay as they are at that point.  Nothing in the
tables says that they have the same names or that an edge stands in both; if it is so, then
because every call keeps it so.

A `Graph` has one list of edges, from which it reads what enters and what leaves a node.
-/
import Residency.Flow.Graph

namespace Residency

/-! ### Building a graph -/

namespace Graph

/-- A call that builds a graph. -/
inductive Call where
  | node (id : NodeId) (accesses : List Int)
  | edge (source target : NodeId) (kind : EdgeKind)
deriving DecidableEq, Repr

/-- The edge that a call adds, if it adds one. -/
def Call.edge? : Call → Option Edge
  | .node _ _ => none
  | .edge source target kind => some ⟨source, target, kind⟩

/-- The graph that a call returns. -/
def respond (t : Journal) (g : Graph) : Call → Except Fault Graph
  | .node id accesses => (g.withNode id accesses t).result
  | .edge source target kind => g.withEdge source target kind

/-- The graph after a call: the new one, or the old one if the call fails. -/
def next (t : Journal) (g : Graph) (c : Call) : Graph :=
  match g.respond t c with
  | .ok g' => g'
  | .error _ => g

/-- The graph after calls, from the empty one on. -/
def after (t : Journal) (calls : List Call) : Graph :=
  calls.foldl (next t) Graph.empty

end Graph

/-! ### Tables -/

/-- Values by name, in the order in which the names were entered. -/
abbrev Table (α : Type) := List (NodeId × α)

namespace Table

variable {α : Type}

/-- The names. -/
def keys (rows : Table α) : List NodeId :=
  rows.map fun r => r.1

/-- Has the name a row? -/
def has (rows : Table α) (id : NodeId) : Bool :=
  rows.any fun r => r.1 == id

/-- Sets the value of a name, in its row or in a new one at the end. -/
def put (rows : Table α) (id : NodeId) (x : α) : Table α :=
  if rows.has id then rows.map fun r => if r.1 = id then (r.1, x) else r
  else rows ++ [(id, x)]

/-- Enters a name with a value, unless it has a row. -/
def enter (rows : Table α) (id : NodeId) (x : α) : Table α :=
  if rows.has id then rows else rows ++ [(id, x)]

/-- Adds a value at the end of the row of a name. -/
def push (rows : Table (List α)) (id : NodeId) (x : α) : Table (List α) :=
  rows.map fun r => if r.1 = id then (r.1, r.2 ++ [x]) else r

end Table

/-- Accesses by node, the far ends of the edges by source, and the near ends by target. -/
structure Adjacency where
  nodes : Table (List Int)
  outgoing : Table (List (NodeId × EdgeKind))
  incoming : Table (List (NodeId × EdgeKind))
deriving DecidableEq, Repr

namespace Adjacency

open Residency.Graph (Call)

/-- The tables without rows. -/
def empty : Adjacency :=
  ⟨[], [], []⟩

/-! ### Looking up -/

/-- Refuses a name that no node has. -/
def requireNode (tables : Adjacency) (id : NodeId) : Except Fault Unit :=
  if tables.nodes.has id then .ok () else refuse (.unknownNode id)

/-- The ends of a row whose edges are of the kind that is asked for. -/
def ends (row : List (NodeId × EdgeKind)) (kind : Option EdgeKind) : List NodeId :=
  (row.filter fun r => kind.all (· == r.2)).map fun r => r.1

/-- The accesses of a node. -/
def accesses (tables : Adjacency) (id : NodeId) : Except Fault (List Int) := do
  tables.requireNode id
  return (tables.nodes.lookup id).getD []

/-- The ends in the row of a node. -/
def endsIn (tables : Adjacency) (rows : Table (List (NodeId × EdgeKind))) (id : NodeId)
    (kind : Option EdgeKind) : Except Fault (List NodeId) := do
  tables.requireNode id
  return ends ((rows.lookup id).getD []) kind

/-- The targets of the edges that leave a node. -/
def successors (tables : Adjacency) : NodeId → Option EdgeKind → Except Fault (List NodeId) :=
  tables.endsIn tables.outgoing

/-- The sources of the edges that enter a node. -/
def predecessors (tables : Adjacency) : NodeId → Option EdgeKind → Except Fault (List NodeId) :=
  tables.endsIn tables.incoming

/-! ### Changing -/

/-- Changes of the tables.  A fault keeps what was changed before it. -/
abbrev Change := ExceptT Fault (StateM Adjacency)

/-- Reports that a known node is added again. -/
def reportNode (known : Bool) (id : NodeId) : Analysis Unit :=
  if known then
    Analysis.note .warning .solver
      ("node " ++ id.text ++ " added twice, replacing its accesses")
  else pure ()

/-- Adds a node, or replaces its accesses, which is reported first. -/
def addNode (t : Journal) (id : NodeId) (accesses : List Int) : Change Unit := do
  ofExcept (reportNode ((← get).nodes.has id) id t).result
  modify fun tables => { tables with nodes := tables.nodes.put id accesses }
  modify fun tables => { tables with outgoing := tables.outgoing.enter id [] }
  modify fun tables => { tables with incoming := tables.incoming.enter id [] }

/-- Adds an edge between two nodes. -/
def addEdge (source target : NodeId) (kind : EdgeKind) : Change Unit := do
  ofExcept ((← get).requireNode source)
  ofExcept ((← get).requireNode target)
  modify fun tables => { tables with outgoing := tables.outgoing.push source (target, kind) }
  modify fun tables => { tables with incoming := tables.incoming.push target (source, kind) }

/-- Carries out a call. -/
def carryOut (t : Journal) : Call → Change Unit
  | .node id accesses => addNode t id accesses
  | .edge source target kind => addEdge source target kind

/-- The answer to a call, and the tables that it leaves. -/
def turn (t : Journal) (tables : Adjacency) (c : Call) : Except Fault Unit × Adjacency :=
  (carryOut t c).run.run tables

/-- The tables after calls, from the empty ones on. -/
def after (t : Journal) (calls : List Call) : Adjacency :=
  calls.foldl (fun tables c => (tables.turn t c).2) Adjacency.empty

/-- The calls that succeed, in their order, when they are carried out one after the other. -/
def succeeding (t : Journal) (tables : Adjacency) : List Call → List Call
  | [] => []
  | c :: calls =>
    let rest := succeeding t (tables.turn t c).2 calls
    if (tables.turn t c).1.isOk then c :: rest else rest

end Adjacency

end Residency
