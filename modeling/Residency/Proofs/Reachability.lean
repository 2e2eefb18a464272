/-
Residency/Proofs/Reachability.lean

Reachable nodes and nodes with a state.  A path from the entry to a node is not enough for
the solver: it waits for all forward predecessors of the node, and one of them may be out of
reach.  Such a node never gets a state, and neither does what comes behind it, even if the
forward edges have no cycle (`Solver.run_reaches`).

`Graph.settled_iff` says it in terms of paths: a node is settled if everything from which it
can be entered, other than through the entry, is reachable.  The direction from right to left
goes up along the forward edges, which ends where the graph is acyclic, since it has finitely
many of them (`Acyclic.wellFounded`).
-/
import Mathlib
import Residency.Proofs.ConstructionOrder

namespace Residency

variable {p : Policy} {g : Graph} {entry : NodeId} {t : Journal}

namespace Graph

/-- A forward path leads from one node to the other. -/
def Reaches (g : Graph) (m n : NodeId) : Prop :=
  ∃ visited, g.Path m visited n

/-- No node comes back to itself along forward edges. -/
def Acyclic (g : Graph) : Prop :=
  ∀ n, ¬Relation.TransGen g.Forward n n

/-- Every forward predecessor of a reachable node is reachable too, the entry's apart. -/
def Enclosed (g : Graph) (entry : NodeId) : Prop :=
  ∀ m n, g.Forward m n → g.Reaches entry n → n ≠ entry → g.Reaches entry m

theorem Reaches.refl (g : Graph) (n : NodeId) : g.Reaches n n :=
  ⟨[], .here⟩

theorem Reaches.tail {m n k : NodeId} (h : g.Reaches m n) (edge : g.Forward n k) :
    g.Reaches m k := by
  obtain ⟨visited, hpath⟩ := h
  exact ⟨visited ++ [n], hpath.step edge⟩

/-! ### Acyclic graphs -/

/-- Edges that lead upward make no cycle. -/
theorem acyclic_of_rank (rank : NodeId → Nat) (h : ∀ m n, g.Forward m n → rank m < rank n) :
    g.Acyclic := by
  intro n hn
  have hlt := Relation.TransGen.lift (p := (· < ·)) rank h n n hn
  rw [Function.onFun, Relation.transGen_eq_self] at hlt
  exact lt_irrefl _ hlt

/-- The predecessors of predecessors come to an end. -/
theorem Acyclic.wellFounded (hg : g.Acyclic) : WellFounded g.Forward := by
  have : IsStrictOrder NodeId (Relation.TransGen g.Forward) :=
    { irrefl := hg, trans := fun _ _ _ => .trans }
  -- All predecessors are among the finitely many sources of edges.
  have hfinite : {m | m ∈ g.edges.map Edge.source}.Finite := List.finite_toSet _
  have hmem : ∀ {m n}, g.Forward m n → m ∈ g.edges.map Edge.source :=
    fun h => List.mem_map_of_mem h
  have hsources :=
    Set.wellFoundedOn_iff.1 (hfinite.wellFoundedOn (r := Relation.TransGen g.Forward))
  have hacc : ∀ n, n ∈ g.edges.map Edge.source → Acc g.Forward n := by
    intro n
    induction n using hsources.induction with
    | _ n ih =>
      intro hn
      exact ⟨n, fun m hm => ih m ⟨.single hm, hmem hm, hn⟩ (hmem hm)⟩
  exact ⟨fun n => ⟨n, fun m hm => hacc m (hmem hm)⟩⟩

/-! ### Settled nodes -/

/-- A node that can be settled can be reached. -/
theorem Settled.reaches {n : NodeId} (h : g.Settled entry n) : g.Reaches entry n := by
  induction h with
  | entry => exact .refl g entry
  | node hsome _ ih =>
    obtain ⟨m, hm⟩ := hsome
    exact (ih m hm).tail hm

/-- What leads to a settled node is settled, unless the node is the entry. -/
theorem Settled.of_forward {m n : NodeId} (h : g.Settled entry n) (hn : n ≠ entry)
    (hm : g.Forward m n) : g.Settled entry m := by
  cases h with
  | entry => exact absurd rfl hn
  | node _ hall => exact hall m hm

/-- What holds of the end of a path and goes from a node to its predecessors holds of the start
of the path, as long as the path does not enter the entry. -/
theorem Path.backward {P : NodeId → Prop}
    (hP : ∀ m n, g.Forward m n → n ≠ entry → P n → P m) {m n : NodeId} {visited : List NodeId}
    (hpath : g.Path m visited n) (hentry : entry ∉ visited ++ [n]) (hn : P n) : P m := by
  induction hpath with
  | here => exact hn
  | @step visited n k hpath edge ih =>
    rw [List.mem_append, List.mem_singleton, not_or] at hentry
    exact ih hentry.1 (hP n k edge (Ne.symm hentry.2) hn)

/-- In an acyclic graph a node is settled if and only if it is reachable and all nodes are
reachable from which a path leads to it and does not meet the entry. -/
theorem settled_iff (hg : g.Acyclic) {n : NodeId} :
    g.Settled entry n ↔ g.Reaches entry n ∧
      ∀ m visited, g.Path m visited n → entry ∉ visited ++ [n] → g.Reaches entry m := by
  constructor
  · intro h
    refine ⟨h.reaches, fun m visited hpath hentry => ?_⟩
    have hm : g.Settled entry m :=
      hpath.backward (fun m n hm hn hsettled => hsettled.of_forward hn hm) hentry h
    exact hm.reaches
  · rintro ⟨hreach, hall⟩
    induction n using hg.wellFounded.induction with
    | _ n ih =>
      by_cases hn : n = entry
      · rw [hn]
        exact .entry
      -- The last edge of a path to the node.
      have hsome : ∃ m, g.Forward m n := by
        obtain ⟨visited, hpath⟩ := hreach
        cases hpath with
        | here => exact absurd rfl hn
        | @step _ m _ _ edge => exact ⟨m, edge⟩
      refine .node hsome fun m hm => ?_
      by_cases hme : m = entry
      · rw [hme]
        exact .entry
      have havoid : ∀ {visited}, entry ∉ visited ++ [m] → entry ∉ visited ++ [m] ++ [n] := by
        intro visited h
        rw [List.mem_append, List.mem_singleton, not_or]
        exact ⟨h, Ne.symm hn⟩
      refine ih m hm ?_ fun k visited hpath hk => ?_
      · exact hall m _ (Path.here.step hm) (havoid (by simpa using Ne.symm hme))
      · exact hall k _ (hpath.step hm) (havoid hk)

/-- All reachable nodes are settled if and only if no edge comes in from outside. -/
theorem settled_iff_reaches_iff_enclosed (hg : g.Acyclic) :
    (∀ n, g.Settled entry n ↔ g.Reaches entry n) ↔ g.Enclosed entry := by
  constructor
  · intro h m n hm hreach hn
    exact (((h n).2 hreach).of_forward hn hm).reaches
  · intro henclosed n
    refine ⟨Settled.reaches, fun hreach => (settled_iff hg).2 ⟨hreach, ?_⟩⟩
    intro m visited hpath hentry
    exact hpath.backward (fun m n hm hn hreach => henclosed m n hm hreach hn) hentry hreach

end Graph

/-! ### Runs -/

namespace Solver

/-- After a run the nodes with a state are the settled ones, and all of them can be judged. -/
theorem judged_of_turns {s : Solution}
    (hturns : Relation.ReflTransGen (Turn p g entry t) ([entry], Solution.empty) ([], s)) :
    (∀ n, n ∈ s.before.map Prod.fst ↔ g.Settled entry n) ∧
      ∃ summaries, (judgeNodes p g s.before t).result = .ok summaries := by
  obtain ⟨hsound, hcomplete⟩ := sound_and_complete_of_turns hturns
  have hs := hsound.solves hcomplete
  have hlookup : ∀ {n state}, s.before.lookup n = some state ↔ (n, state) ∈ s.before :=
    Solution.lookup_eq_some_iff_mem hsound.nodup
  refine ⟨fun n => ?_, exists_judgeNodes fun n state hmem => ?_⟩
  · rw [← hs.nodes, List.mem_map]
    constructor
    · rintro ⟨⟨_, state⟩, hmem, rfl⟩
      exact ⟨state, hlookup.2 hmem⟩
    · rintro ⟨state, hstate⟩
      exact ⟨(n, state), hlookup.1 hstate, rfl⟩
  · have hstate := hlookup.2 hmem
    obtain ⟨out, hout⟩ := (hs.behind n).2 ⟨state, hstate⟩
    exact ⟨(Solution.Recorded.turns hturns).has n state hstate, out,
      hs.walked n state out hstate hout⟩

/-- **Reachability is not enough.**  If a run on an acyclic graph succeeds, a node gets a state
if and only if it is reachable from the entry and so is every node from which it can be
entered without passing through the entry; these nodes, in this order, are judged.  So the
nodes with a state are the reachable ones exactly where no forward edge leads from a node that
is out of reach to a reachable node other than the entry. -/
theorem run_reaches (p : Policy) (g : Graph) (hg : g.Acyclic) (entry : NodeId) (a a' : Solver)
    (t : Journal) (table : StateTable) (hmake : make g entry = .ok a)
    (hrun : (a.run p g t).result = .ok (a', .ok table)) :
    (∀ n, n ∈ table.map Prod.fst ↔ g.Reaches entry n ∧
      ∀ m visited, g.Path m visited n → entry ∉ visited ++ [n] → g.Reaches entry m) ∧
    (∃ summaries, (a'.verdicts p g t).result = .ok (a', .ok summaries) ∧
      summaries.map Prod.fst = table.map Prod.fst) ∧
    ((∀ n, n ∈ table.map Prod.fst ↔ g.Reaches entry n) ↔ g.Enclosed entry) := by
  obtain ⟨s, hturns, rfl, rfl⟩ := turns_of_run hmake hrun
  obtain ⟨hnodes, summaries, hjudge⟩ := judged_of_turns hturns
  refine ⟨fun n => ?_, ⟨summaries, ?_, (nodes_of_judgeNodes hjudge).1⟩, ?_⟩
  · rw [hnodes, Graph.settled_iff hg]
  · rw [verdicts_of_run (run_of_finished p g t entry s), hjudge]
  · simp only [hnodes]
    exact Graph.settled_iff_reaches_iff_enclosed hg

end Solver

/-- Node 2 can be reached from node 0, and node 3 through it, but another edge into node 2 comes
from node 1, to which nothing leads. -/
def Graph.sideEntrance : Graph where
  nodes := [⟨.number 0, [1]⟩, ⟨.number 1, [2]⟩, ⟨.number 2, [3]⟩, ⟨.number 3, []⟩]
  edges := [⟨.number 0, .number 2, .forward⟩, ⟨.number 1, .number 2, .forward⟩,
    ⟨.number 2, .number 3, .forward⟩]

theorem Graph.acyclic_sideEntrance : Graph.sideEntrance.Acyclic := by
  -- Every edge leads to a later node.
  refine Graph.acyclic_of_rank Graph.sideEntrance.ids.idxOf fun m n h => ?_
  simp only [Graph.Forward, Graph.sideEntrance, List.mem_cons, Edge.mk.injEq, and_true,
    List.not_mem_nil, or_false] at h
  rcases h with ⟨rfl, rfl⟩ | ⟨rfl, rfl⟩ | ⟨rfl, rfl⟩ <;> decide

theorem Solver.run_reaches_sideEntrance : Graph.sideEntrance.Acyclic ∧ ∃ a a' table,
    Solver.make .sideEntrance (.number 0) = .ok a ∧
    (a.run (.lruCache ⟨2⟩) .sideEntrance none).result = .ok (a', .ok table) ∧
    table = [(.number 0, State.blank 2)] ∧
    Graph.sideEntrance.Reaches (.number 0) (.number 2) ∧
    Graph.sideEntrance.Reaches (.number 0) (.number 3) ∧
    ¬Graph.sideEntrance.Enclosed (.number 0) := by
  refine ⟨Graph.acyclic_sideEntrance, _, _, _, rfl, by cbv, rfl, ?_⟩
  obtain ⟨-, -, hiff⟩ := run_reaches (.lruCache ⟨2⟩) .sideEntrance Graph.acyclic_sideEntrance
    (.number 0) _ _ none _ rfl (by cbv)
  have hreach : Graph.sideEntrance.Reaches (.number 0) (.number 2) :=
    (Graph.Reaches.refl _ _).tail (by simp [Graph.Forward, Graph.sideEntrance])
  refine ⟨hreach, hreach.tail (by simp [Graph.Forward, Graph.sideEntrance]), fun henclosed => ?_⟩
  have hmem := (hiff.2 henclosed (.number 2)).2 hreach
  cases List.mem_singleton.1 hmem

end Residency
