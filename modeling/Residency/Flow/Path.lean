/-
Residency/Flow/Path.lean

Forward paths of a flow graph, and the nodes that can be settled.  A path lists the nodes
in front of its end, in order.  A node can be settled if it is the entry, or if it has
forward predecessors and all of them can be settled; a node with a forward predecessor that
cannot be settled never is, although a path may lead to it.
-/
import Residency.Flow.Graph

namespace Residency

namespace Graph

/-- There is a forward edge between the nodes. -/
def Forward (g : Graph) (source target : NodeId) : Prop :=
  ⟨source, target, .forward⟩ ∈ g.edges

/-- A forward path, with the nodes in front of its end. -/
inductive Path (g : Graph) (start : NodeId) : List NodeId → NodeId → Prop
  | here : Path g start [] start
  | step {visited : List NodeId} {n m : NodeId} (h : Path g start visited n)
      (edge : g.Forward n m) : Path g start (visited ++ [n]) m

/-- The accesses of nodes in order. -/
def accessesAlong (g : Graph) (visited : List NodeId) : List Int :=
  visited.flatMap g.accessesOf

/-- The least set of nodes with the entry and every node that has forward predecessors, all
of them in the set. -/
inductive Settled (g : Graph) (entry : NodeId) : NodeId → Prop
  | entry : Settled g entry entry
  | node {n : NodeId} (some : ∃ m, g.Forward m n)
      (all : ∀ m, g.Forward m n → Settled g entry m) : Settled g entry n

theorem mem_sourcesOf_forward {g : Graph} {m n : NodeId} :
    m ∈ g.sourcesOf n (some .forward) ↔ g.Forward m n := by
  simp only [sourcesOf, Edge.isOf, Forward, List.mem_map, List.mem_filter, Bool.and_eq_true,
    beq_iff_eq, Option.all_some]
  constructor
  · rintro ⟨⟨source, target, kind⟩, ⟨he, rfl, rfl⟩, rfl⟩
    exact he
  · intro h
    exact ⟨_, ⟨h, rfl, rfl⟩, rfl⟩

theorem mem_targetsOf_forward {g : Graph} {m n : NodeId} :
    n ∈ g.targetsOf m (some .forward) ↔ g.Forward m n := by
  simp only [targetsOf, Edge.isOf, Forward, List.mem_map, List.mem_filter, Bool.and_eq_true,
    beq_iff_eq, Option.all_some]
  constructor
  · rintro ⟨⟨source, target, kind⟩, ⟨he, rfl, rfl⟩, rfl⟩
    exact he
  · intro h
    exact ⟨_, ⟨h, rfl, rfl⟩, rfl⟩

end Graph

end Residency
