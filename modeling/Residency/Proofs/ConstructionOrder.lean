/-
Residency/Proofs/ConstructionOrder.lean

The order of construction.  What a solver finds depends on the accesses of the nodes and on
which forward edges there are.  It does not depend on the order in which nodes and edges were
added to the graph, on how often a forward edge was repeated, or on back edges
(`Solver.run_of_sameFlow`), although the order of the edges decides in which order nodes are
taken from the stack and states are joined, and a repeated edge makes a join of a state with
itself.

The states of a run that succeeded on one graph are a reference for every graph with the
same flow.  Whatever the loop does there, all states that it finds are those of the reference
(`Stage.Agrees`): a node starts from the least upper bound of the states behind its
predecessors, and that is one state, in whatever order they are joined.  Nothing can fail
on the way, since the reference has gone through the same accesses and has reported the
same states.
-/
import Residency.Proofs.Joins
import Residency.Proofs.Judging

namespace Residency

variable {p : Policy} {g h : Graph} {entry : NodeId} {t : Journal}

/-! ### Graphs with the same flow -/

namespace Graph

/-- Graphs that come about by adding nodes and edges. -/
inductive Built : Graph → Prop
  | empty : Built Graph.empty
  | node {g g' : Graph} {id : NodeId} {accesses : List Int} {t : Journal} (hg : Built g)
      (h : (g.withNode id accesses t).result = .ok g') : Built g'
  | edge {g g' : Graph} {source target : NodeId} {kind : EdgeKind} (hg : Built g)
      (h : g.withEdge source target kind = .ok g') : Built g'

theorem has_iff {n : NodeId} : g.has n = true ↔ n ∈ g.ids := by
  simp [has, ids]

/-- Inserting a node keeps the order of the names, and a new name comes last. -/
theorem ids_insert (g : Graph) (node : Node) :
    (g.insert node).ids = if g.has node.id then g.ids else g.ids ++ [node.id] := by
  rw [insert]
  split
  · rw [ids, ids, List.map_map]
    refine List.map_congr_left fun n _ => ?_
    rw [Function.comp_apply]
    split
    · exact Eq.symm ‹_›
    · rfl
  · rw [ids, List.map_append]
    rfl

theorem edges_insert (g : Graph) (node : Node) : (g.insert node).edges = g.edges := by
  rw [insert]
  split <;> rfl

/-- No name occurs twice, and edges lead to nodes. -/
structure Closed (g : Graph) : Prop where
  nodup : g.ids.Nodup
  targets : ∀ e ∈ g.edges, g.has e.target = true

/-- Inserting a node keeps a graph closed. -/
theorem Closed.insert (hg : g.Closed) (node : Node) : (g.insert node).Closed where
  nodup := by
    rw [ids_insert]
    split
    · exact hg.nodup
    · rename_i hnew
      rw [has_iff] at hnew
      exact List.nodup_append.2 ⟨hg.nodup, List.nodup_singleton _, fun a ha b hb hab =>
        hnew (List.mem_singleton.1 hb ▸ hab ▸ ha)⟩
  targets := by
    intro e he
    rw [edges_insert] at he
    have htarget := has_iff.1 (hg.targets e he)
    rw [has_iff, ids_insert]
    split
    · exact htarget
    · exact List.mem_append_left _ htarget

/-- Adding a node, where it succeeds, inserts it. -/
theorem eq_insert_of_withNode {g' : Graph} {id : NodeId} {accesses : List Int}
    (h : (g.withNode id accesses t).result = .ok g') : g' = g.insert ⟨id, accesses⟩ := by
  rw [withNode] at h
  split at h
  · exact (Analysis.eq_of_result_bind_pure h).symm
  · exact (Analysis.result_pure_eq_ok.1 h).symm

/-- An edge needs its source and its target, and the source is looked for first. -/
theorem withEdge_eq (g : Graph) (source target : NodeId) (kind : EdgeKind) :
    g.withEdge source target kind =
      if g.has source then
        if g.has target then .ok { g with edges := g.edges ++ [⟨source, target, kind⟩] }
        else refuse (.unknownNode target)
      else refuse (.unknownNode source) := by
  rw [withEdge, requireNode, requireNode]
  split
  · split <;> rfl
  · rfl

theorem withEdge_eq_ok {g' : Graph} {source target : NodeId} {kind : EdgeKind} :
    g.withEdge source target kind = .ok g' ↔ g.has source = true ∧ g.has target = true ∧
      g' = { g with edges := g.edges ++ [⟨source, target, kind⟩] } := by
  rw [withEdge_eq]
  by_cases hsource : g.has source = true
  · by_cases htarget : g.has target = true
    · rw [if_pos hsource, if_pos htarget, Except.ok.injEq]
      exact ⟨fun h => ⟨hsource, htarget, h.symm⟩, fun h => h.2.2.symm⟩
    · rw [if_pos hsource, if_neg htarget]
      exact ⟨fun h => absurd h (refuse_ne_ok _ _), fun h => absurd h.2.1 htarget⟩
  · rw [if_neg hsource]
    exact ⟨fun h => absurd h (refuse_ne_ok _ _), fun h => absurd h.1 hsource⟩

/-- A graph that was built is closed: names are unique and edges have targets. -/
theorem Built.closed (hg : g.Built) : g.Closed := by
  induction hg with
  | empty => exact ⟨List.nodup_nil, fun _ he => nomatch he⟩
  | node _ h ih =>
    obtain rfl := eq_insert_of_withNode h
    exact ih.insert _
  | edge _ h ih =>
    obtain ⟨-, htarget, rfl⟩ := withEdge_eq_ok.1 h
    refine ⟨ih.nodup, fun e he => ?_⟩
    rcases List.mem_append.1 he with he | he
    · exact ih.targets e he
    · obtain rfl := List.mem_singleton.1 he
      exact htarget

/-- The same accesses at every node, and the same forward edges. -/
structure SameFlow (g h : Graph) : Prop where
  accesses : ∀ n, g.accesses n = h.accesses n
  forward : ∀ m n, g.Forward m n ↔ h.Forward m n

namespace SameFlow

theorem symm (hsame : g.SameFlow h) : h.SameFlow g :=
  ⟨fun n => (hsame.accesses n).symm, fun m n => (hsame.forward m n).symm⟩

/-- A node of one graph is a node of the other, with the same accesses. -/
theorem of_has (hsame : g.SameFlow h) {n : NodeId} (hn : g.has n = true) :
    h.has n = true ∧ h.accessesOf n = g.accessesOf n := by
  have hg := Solver.accesses_eq_ok.2 ⟨hn, rfl⟩
  rw [hsame.accesses] at hg
  obtain ⟨hh, haccesses⟩ := Solver.accesses_eq_ok.1 hg
  exact ⟨hh, haccesses.symm⟩

theorem has_eq (hsame : g.SameFlow h) (n : NodeId) : g.has n = h.has n := by
  rw [Bool.eq_iff_iff]
  exact ⟨fun hn => (hsame.of_has hn).1, fun hn => (hsame.symm.of_has hn).1⟩

/-- Graphs of the same flow have as many nodes as each other. -/
theorem size_eq (hsame : g.SameFlow h) (hg : g.Closed) (hh : h.Closed) : g.size = h.size := by
  have hperm : g.ids.Perm h.ids := by
    refine (List.perm_ext_iff_of_nodup hg.nodup hh.nodup).2 fun n => ?_
    rw [← has_iff, ← has_iff, hsame.has_eq]
  have hlength := hperm.length_eq
  rw [ids, ids, List.length_map, List.length_map] at hlength
  exact hlength

/-- Which nodes can be settled depends on the forward edges only. -/
theorem settled (hsame : g.SameFlow h) {n : NodeId} (hn : g.Settled entry n) :
    h.Settled entry n := by
  induction hn with
  | entry => exact .entry
  | @node n hsome _ ih =>
    obtain ⟨m, hm⟩ := hsome
    exact .node ⟨m, (hsame.forward m n).1 hm⟩ fun m hm => ih m ((hsame.forward m n).2 hm)

end SameFlow

end Graph

/-! ### What nodes start from -/

namespace Starts

variable {s : Solution} {n : NodeId} {state : State}

/-- Apart from the entry, a node starts from the only state behind a predecessor or from the
join of them. -/
theorem exists_outs (h : Starts p g entry t s n state) (hn : n ≠ entry) : ∃ outs,
    List.Forall₂ (fun m out => s.after? m = some out) (g.sourcesOf n (some .forward)) outs ∧
      (outs = [state] ∨ (p.join outs t).result = .ok state) := by
  cases h with
  | entry => exact absurd rfl hn
  | single _ hm hout =>
    rw [hm]
    exact ⟨[state], .cons hout .nil, .inl rfl⟩
  | joined _ _ houts hjoin => exact ⟨_, houts, .inr hjoin⟩

/-- A node starts in a regular state if the states behind its predecessors are regular. -/
theorem regular (hs : ∀ m out, s.after? m = some out → out.Regular p)
    (h : Starts p g entry t s n state) : state.Regular p := by
  by_cases hn : n = entry
  · cases h with
    | entry => exact .blank p
    | single hne => exact absurd hn hne
    | joined hne => exact absurd hn hne
  obtain ⟨outs, houts, hstate⟩ := h.exists_outs hn
  have hregular := (forall_outs_iff houts).2 fun m out _ => hs m out
  rcases hstate with rfl | hjoin
  · exact hregular state (List.mem_singleton_self state)
  · exact (Policy.join_precise_iff hregular hjoin).1

/-- A node starts from the least upper bound of the states behind its predecessors. -/
theorem precise_iff (hs : ∀ m out, s.after? m = some out → out.Regular p)
    (h : Starts p g entry t s n state) (hn : n ≠ entry) (v : State) :
    state.Precise v ↔ ∀ m out, g.Forward m n → s.after? m = some out → out.Precise v := by
  obtain ⟨outs, houts, hstate⟩ := h.exists_outs hn
  rw [← forall_outs_iff houts]
  rcases hstate with rfl | hjoin
  · rw [List.forall_mem_singleton]
  · have hregular := (forall_outs_iff houts).2 fun m out _ => hs m out
    exact (Policy.join_precise_iff hregular hjoin).2 v

/-- If the state in front of a node can be reported, so can those behind its predecessors. -/
theorem reports (hs : ∀ m out, s.after? m = some out → out.Regular p)
    (h : Starts p g entry t s n state) (hn : n ≠ entry) (hstate : p.Reports t state) :
    ∀ m out, g.Forward m n → s.after? m = some out → p.Reports t out := by
  obtain ⟨outs, houts, rfl | hjoin⟩ := h.exists_outs hn
  · exact (forall_outs_iff houts).1 (List.forall_mem_singleton.2 hstate)
  · have hregular := (forall_outs_iff houts).2 fun m out _ => hs m out
    refine (forall_outs_iff houts).1 ((Policy.join_succeeds_iff ?_ hregular).1 ⟨state, hjoin⟩)
    obtain ⟨_, _, _, rfl, -⟩ := Policy.result_join.1 hjoin
    exact Nat.le_add_left 2 _

end Starts

/-- A node with predecessors starts without fault if their states can be joined and reported. -/
theorem startState?_succeeds {s : Solution} {n : NodeId} {start : Analysis State}
    (hstart : startState? p g entry s n = some start) (hn : n ≠ entry) (hsome : ∃ m, g.Forward m n)
    (hs : ∀ m out, g.Forward m n → s.after? m = some out → out.Regular p ∧ p.Reports t out) :
    start.Succeeds t := by
  obtain ⟨outs, houts, ⟨out, -, rfl⟩ | ⟨hlength, rfl⟩⟩ := outs_of_startState? hstart hn
  · exact Analysis.succeeds_pure out t
  · have hall := (forall_outs_iff houts).2 hs
    refine (Policy.join_succeeds_iff ?_ fun out hout => (hall out hout).1).2
      fun out hout => (hall out hout).2
    obtain ⟨m, hm⟩ := hsome
    have hmem := List.length_pos_of_mem (Graph.mem_sourcesOf_forward.2 hm)
    rw [houts.length_eq] at hmem
    omega

/-- The texts of a state that was reported in front of a node can be written. -/
theorem reports_of_reportStart {n : NodeId} {state : State}
    (h : (reportStart p n state t).result = .ok ()) : p.Reports t state := by
  intro ht
  obtain ⟨_, -, hsets⟩ := (Analysis.succeeds_inDetail_iff.1 ⟨(), h⟩ ht).of_bind
  obtain ⟨must, hmust, hsets⟩ := hsets.of_bind
  obtain ⟨_, -, hsets⟩ := hsets.of_bind
  obtain ⟨may, hmay, -⟩ := hsets.of_bind
  rintro (_ | _)
  · exact Policy.succeeds_setText_iff.1 ⟨must, hmust⟩
  · exact Policy.succeeds_setText_iff.1 ⟨may, hmay⟩

/-! ### The reference -/

/-- What is found after a line was added was there before or is that line. -/
theorem Solution.lookup_concat_cases {table : StateTable} {id n : NodeId} {x y : State}
    (h : (table ++ [(id, x)]).lookup n = some y) :
    table.lookup n = some y ∨ n = id ∧ x = y := by
  rw [Solution.lookup_concat, Option.or_eq_some_iff] at h
  rcases h with h | ⟨-, h⟩
  · exact .inl h
  · rw [Option.ite_none_right_eq_some, Option.some.injEq] at h
    exact .inr h

/-- The nodes with a state belong to the graph, and their states were reported. -/
structure Solution.Recorded (p : Policy) (g : Graph) (t : Journal) (s : Solution) : Prop where
  has : ∀ n state, s.before? n = some state → g.has n = true
  reported : ∀ n state, s.before? n = some state → (reportStart p n state t).result = .ok ()
  regular : ∀ n out, s.after? n = some out → out.Regular p

namespace Solution.Recorded

/-- A turn adds a node of the graph, with a state that was reported. -/
theorem turn {c c' : Stage} (h : Turn p g entry t c c') (hc : c.2.Recorded p g t) :
    c'.2.Recorded p g t := by
  cases h with
  | known => exact hc
  | postponed => exact hc
  | @settled id rest s start state out _ hid hstart hstate hout hreport =>
    refine ⟨fun n x hx => ?_, fun n x hx => ?_, fun n x hx => ?_⟩
    · rcases Solution.lookup_concat_cases hx with hx | ⟨rfl, -⟩
      · exact hc.has n x hx
      · exact hid
    · rcases Solution.lookup_concat_cases hx with hx | ⟨rfl, rfl⟩
      · exact hc.reported n x hx
      · exact hreport
    · rcases Solution.lookup_concat_cases hx with hx | ⟨rfl, rfl⟩
      · exact hc.regular n x hx
      · have hregular := (starts_of_startState? hstart hstate).regular hc.regular
        exact (p.tracks_regular t).walk (H := ∅) hregular hout

/-- So do all turns of a run. -/
theorem turns {c : Stage}
    (h : Relation.ReflTransGen (Turn p g entry t) ([entry], Solution.empty) c) :
    c.2.Recorded p g t := by
  induction h with
  | refl => exact ⟨fun _ _ h => (nomatch h), fun _ _ h => (nomatch h), fun _ _ h => (nomatch h)⟩
  | tail _ hturn ih => exact ih.turn hturn

/-- On a graph with the same flow, a node is walked from its state as here. -/
theorem walk {s : Solution} (hrec : s.Recorded p g t) (hs : s.Solves p g entry t)
    (hsame : g.SameFlow h) {id : NodeId} {state : State} (hstate : s.before? id = some state) :
    ∃ out, (p.walk state (h.accessesOf id) t).result = .ok out ∧ s.after? id = some out := by
  obtain ⟨out, hout⟩ := (hs.behind id).2 ⟨state, hstate⟩
  rw [(hsame.of_has (hrec.has id state hstate)).2]
  exact ⟨out, hs.walked id state out hstate hout, hout⟩

end Solution.Recorded

/-! ### Another graph with the same flow -/

/-- What is known at a stage is known in the reference, and no node is on the stack without
reason. -/
structure Stage.Agrees (h : Graph) (entry : NodeId) (S : Solution) (c : Stage) : Prop where
  stack : ∀ n ∈ c.1, n = entry ∨ ∃ m, h.Forward m n
  before : ∀ n state, c.2.before? n = some state → S.before? n = some state
  after : ∀ n out, c.2.after? n = some out → S.after? n = some out

namespace Stage.Agrees

variable {S s : Solution} {id : NodeId} {rest : List NodeId} {c : Stage}

/-- A node that can start does start, from its state in the reference. -/
theorem start (hsame : g.SameFlow h) (hS : S.Solves p g entry t) (hrec : S.Recorded p g t)
    (hc : Stage.Agrees h entry S (id :: rest, s)) {start : Analysis State}
    (hstart : startState? p h entry s id = some start) :
    ∃ state, (start t).result = .ok state ∧ S.before? id = some state := by
  by_cases hid : id = entry
  · rw [hid, startState?_entry] at hstart
    obtain rfl := Option.some.inj hstart
    rw [hid]
    exact ⟨_, rfl, hS.entryBlank⟩
  obtain ⟨m₀, hm₀⟩ := (hc.stack id List.mem_cons_self).resolve_left hid
  -- All predecessors are done here, so the reference has a state for the node.
  have hdone : ∀ m, g.Forward m id → g.Settled entry m := by
    intro m hm
    obtain ⟨outs, houts, -⟩ := outs_of_startState? hstart hid
    have hmem := Graph.mem_sourcesOf_forward.2 ((hsame.forward m id).1 hm)
    obtain ⟨i, hi, rfl⟩ := List.getElem_of_mem hmem
    have hout := hc.after _ _ (houts.get hi (houts.length_eq ▸ hi))
    exact (hS.nodes _).1 ((hS.behind _).1 ⟨_, hout⟩)
  obtain ⟨state, hstate⟩ := (hS.nodes id).2 (.node ⟨m₀, (hsame.forward m₀ id).2 hm₀⟩ hdone)
  have hgstart := hS.starts id state hstate
  have hreports := hgstart.reports hrec.regular hid
    (reports_of_reportStart (hrec.reported id state hstate))
  obtain ⟨x, hx⟩ : start.Succeeds t :=
    startState?_succeeds hstart hid ⟨m₀, hm₀⟩ fun m out hm hout =>
      ⟨hrec.regular m out (hc.after m out hout),
        hreports m out ((hsame.forward m id).2 hm) (hc.after m out hout)⟩
  -- Both states are the least upper bound of the same states.
  have hhstart : Starts p h entry t S id x := (starts_of_startState? hstart hx).mono hc.after
  have hbound : ∀ v, x.Precise v ↔ state.Precise v := by
    intro v
    rw [hhstart.precise_iff hrec.regular hid, hgstart.precise_iff hrec.regular hid]
    simp only [hsame.forward]
  obtain rfl : x = state :=
    (hhstart.regular hrec.regular).eq_of_precise (hgstart.regular hrec.regular)
      ((hbound state).2 (.refl state)) ((hbound x).1 (.refl x))
  exact ⟨x, hx, hstate⟩

/-- A turn on one graph keeps to the solution of the other. -/
theorem turn (hsame : g.SameFlow h) (hS : S.Solves p g entry t) (hrec : S.Recorded p g t)
    {c' : Stage} (hturn : Turn p h entry t c c') (hc : Stage.Agrees h entry S c) :
    Stage.Agrees h entry S c' := by
  cases hturn with
  | known =>
    exact ⟨fun n hn => hc.stack n (List.mem_cons_of_mem _ hn), hc.before, hc.after⟩
  | postponed =>
    exact ⟨fun n hn => hc.stack n (List.mem_cons_of_mem _ hn), hc.before, hc.after⟩
  | @settled id rest s start state out _ _ hstart hstate hout _ =>
    obtain ⟨x, hx, hbefore⟩ := hc.start hsame hS hrec hstart
    obtain rfl := Except.ok.inj (hx.symm.trans hstate)
    obtain ⟨y, hy, hafter⟩ := hrec.walk hS hsame hbefore
    obtain rfl := Except.ok.inj (hy.symm.trans hout)
    refine ⟨fun n hn => ?_, fun n z hz => ?_, fun n z hz => ?_⟩
    · rcases List.mem_append.1 hn with hn | hn
      · exact .inr ⟨id, Graph.mem_targetsOf_forward.1 (List.mem_reverse.1 hn)⟩
      · exact hc.stack n (List.mem_cons_of_mem _ hn)
    · rcases Solution.lookup_concat_cases hz with hz | ⟨rfl, rfl⟩
      · exact hc.before n z hz
      · exact hbefore
    · rcases Solution.lookup_concat_cases hz with hz | ⟨rfl, rfl⟩
      · exact hc.after n z hz
      · exact hafter

/-- So does a whole run, whatever its order. -/
theorem turns (hsame : g.SameFlow h) (hS : S.Solves p g entry t) (hrec : S.Recorded p g t)
    (hturns : Relation.ReflTransGen (Turn p h entry t) ([entry], Solution.empty) c) :
    Stage.Agrees h entry S c := by
  induction hturns with
  | refl =>
    exact ⟨fun n hn => .inl (List.mem_singleton.1 hn), fun _ _ h => (nomatch h),
      fun _ _ h => (nomatch h)⟩
  | tail _ hturn ih => exact ih.turn hsame hS hrec hturn

/-- The loop does not stop with a fault. -/
theorem halts (hsame : g.SameFlow h) (hh : h.Closed) (hentry : h.has entry = true)
    (hS : S.Solves p g entry t) (hrec : S.Recorded p g t) (hc : Stage.Agrees h entry S c)
    {e : Fault} : ¬Halts p h entry t c (s, .error e) := by
  intro hhalts
  cases hhalts with
  | @unknown id rest _ _ hid =>
    have hhas : h.has id = true := by
      rcases hc.stack id List.mem_cons_self with rfl | ⟨m, hm⟩
      · exact hentry
      · exact hh.targets _ hm
    rw [hhas] at hid
    cases hid
  | start _ _ hstart he =>
    obtain ⟨x, hx, -⟩ := hc.start hsame hS hrec hstart
    cases hx.symm.trans he
  | walk _ _ hstart hstate he =>
    obtain ⟨x, hx, hbefore⟩ := hc.start hsame hS hrec hstart
    obtain rfl := Except.ok.inj (hx.symm.trans hstate)
    obtain ⟨y, hy, -⟩ := hrec.walk hS hsame hbefore
    cases hy.symm.trans he
  | report _ _ hstart hstate _ he =>
    obtain ⟨x, hx, hbefore⟩ := hc.start hsame hS hrec hstart
    obtain rfl := Except.ok.inj (hx.symm.trans hstate)
    cases (hrec.reported _ x hbefore).symm.trans he

end Stage.Agrees

/-! ### Whole runs -/

namespace Solution

/-- In a table without repeated names looking up a name finds its line. -/
theorem lookup_eq_some_iff_mem {table : StateTable} (hnodup : (table.map Prod.fst).Nodup)
    {n : NodeId} {x : State} : table.lookup n = some x ↔ (n, x) ∈ table := by
  induction table with
  | nil => simp
  | cons entry table ih =>
    obtain ⟨id, y⟩ := entry
    rw [List.map_cons, List.nodup_cons] at hnodup
    rw [List.lookup_cons, List.mem_cons, Prod.mk.injEq, ← ih hnodup.2]
    by_cases hn : n = id
    · -- The name does not occur again, so nothing in the rest is meant.
      have hrest : table.lookup id = none := by
        rw [List.lookup_eq_none_iff]
        intro e he
        exact bne_iff_ne.2 fun hid => hnodup.1 (List.mem_map.2 ⟨e, he, hid.symm⟩)
      simp [hn, hrest, eq_comm]
    · simp [hn, beq_false_of_ne hn]

/-- Tables in which the same can be looked up differ in their order only. -/
theorem perm_of_lookup {table table' : StateTable} (hnodup : (table.map Prod.fst).Nodup)
    (hnodup' : (table'.map Prod.fst).Nodup) (h : ∀ n, table.lookup n = table'.lookup n) :
    table.Perm table' := by
  refine (List.perm_ext_iff_of_nodup hnodup.of_map hnodup'.of_map).2 ?_
  rintro ⟨n, x⟩
  rw [← lookup_eq_some_iff_mem hnodup, ← lookup_eq_some_iff_mem hnodup', h]

/-- When the stack is worked off, all of the reference has been found. -/
theorem eq_of_sameFlow {S s : Solution} (hsame : g.SameFlow h) (hS : S.Solves p g entry t)
    (hrec : S.Recorded p g t)
    (hturns : Relation.ReflTransGen (Turn p h entry t) ([entry], Solution.empty) ([], s))
    (n : NodeId) : S.before? n = s.before? n ∧ S.after? n = s.after? n := by
  have hagrees := Stage.Agrees.turns hsame hS hrec hturns
  obtain ⟨hsound, hcomplete⟩ := sound_and_complete_of_turns hturns
  have hs := hsound.solves hcomplete
  have hfound : (∃ state, S.before? n = some state) → ∃ state, s.before? n = some state :=
    fun hn => (hs.nodes n).2 (hsame.settled ((hS.nodes n).1 hn))
  constructor
  · refine Option.ext fun x => ⟨fun hx => ?_, hagrees.before n x⟩
    obtain ⟨y, hy⟩ := hfound ⟨x, hx⟩
    exact hy.trans ((hagrees.before n y hy).symm.trans hx)
  · refine Option.ext fun x => ⟨fun hx => ?_, hagrees.after n x⟩
    obtain ⟨y, hy⟩ := (hs.behind n).2 (hfound ((hS.behind n).1 ⟨x, hx⟩))
    exact hy.trans ((hagrees.after n y hy).symm.trans hx)

end Solution

namespace Solver

/-- The nodes of one graph can be judged as those of the other, with the same summaries. -/
theorem judgeNodes_of_sameFlow (hsame : g.SameFlow h) {table table' : StateTable}
    (hperm : table.Perm table') {summaries : List (NodeId × Summary)}
    (hjudge : (judgeNodes p g table t).result = .ok summaries) :
    ∃ summaries', (judgeNodes p h table' t).result = .ok summaries' ∧
      summaries.Perm summaries' := by
  obtain ⟨summaries', hjudge', hsummaries⟩ :=
    List.perm_comp_forall₂ hperm.symm (judgeNodes_eq_ok.1 hjudge)
  refine ⟨summaries', judgeNodes_eq_ok.2 (hjudge'.imp ?_), hsummaries.symm⟩
  rintro node summary ⟨hnode, hhas, hsummary⟩
  obtain ⟨hhas', haccesses⟩ := hsame.of_has hhas
  rw [haccesses]
  exact ⟨hnode, hhas', hsummary⟩

/-- If a new solver runs with success on a graph, it does so on every graph with the same flow
and finds the same states, and the nodes can be judged. -/
theorem exists_run_of_sameFlow (hg : g.Closed) (hh : h.Closed) (hsame : g.SameFlow h)
    (hentry : h.has entry = true) {a' : Solver} {table : StateTable}
    (hrun : (run p g ⟨entry, Solution.empty, false⟩ t).result = .ok (a', .ok table)) :
    ∃ b' table', (run p h ⟨entry, Solution.empty, false⟩ t).result = .ok (b', .ok table') ∧
      table.Perm table' ∧
      (∀ n, a'.solution.before? n = b'.solution.before? n ∧
        a'.solution.after? n = b'.solution.after? n) ∧
      ∃ summaries, (judgeNodes p g table t).result = .ok summaries := by
  obtain ⟨r, hends, hr⟩ := exists_ends p g t (a := ⟨entry, Solution.empty, false⟩) rfl
  obtain rfl := Except.ok.inj (hr.symm.trans hrun)
  cases hends with
  | @finished S hturns hreport =>
    obtain ⟨hsound, hcomplete⟩ := sound_and_complete_of_turns hturns
    have hS := hsound.solves hcomplete
    have hrec := Solution.Recorded.turns hturns
    obtain ⟨r, hends', hrun'⟩ := exists_ends p h t (a := ⟨entry, Solution.empty, false⟩) rfl
    have hperm : ∀ {s}, Relation.ReflTransGen (Turn p h entry t) ([entry], Solution.empty) ([], s) →
        S.before.Perm s.before := by
      intro s hturns'
      exact Solution.perm_of_lookup hsound.nodup (sound_and_complete_of_turns hturns').1.nodup
        fun n => (Solution.eq_of_sameFlow hsame hS hrec hturns' n).1
    cases hends' with
    | failed hturns' hhalts =>
      exact absurd hhalts ((Stage.Agrees.turns hsame hS hrec hturns').halts hsame hh hentry hS hrec)
    | @unreported s e hturns' he =>
      -- As many nodes are left without state as in the reference.
      rw [reportSkipped, ← hsame.size_eq hg hh, ← (hperm hturns').length_eq] at he
      cases he.symm.trans hreport
    | @finished s hturns' _ =>
      refine ⟨_, _, hrun', hperm hturns', Solution.eq_of_sameFlow hsame hS hrec hturns', ?_⟩
      refine exists_judgeNodes fun n state hmem => ?_
      have hstate := (Solution.lookup_eq_some_iff_mem hsound.nodup).2 hmem
      obtain ⟨out, hout⟩ := (hS.behind n).2 ⟨state, hstate⟩
      exact ⟨hrec.has n state hstate, out, hS.walked n state out hstate hout⟩

/-- A run fails if the run on a graph of the same flow does. -/
theorem exists_error_of_sameFlow (hg : g.Closed) (hh : h.Closed) (hsame : g.SameFlow h)
    (hentry : g.has entry = true) {a' b' : Solver} {e : Fault}
    {ended : Except Fault StateTable}
    (hrun : (run p g ⟨entry, Solution.empty, false⟩ t).result = .ok (a', .error e))
    (hrun' : (run p h ⟨entry, Solution.empty, false⟩ t).result = .ok (b', ended)) :
    ∃ e', ended = .error e' := by
  cases ended with
  | error e' => exact ⟨e', rfl⟩
  | ok table =>
    obtain ⟨_, _, hok, -⟩ := exists_run_of_sameFlow hh hg hsame.symm hentry hrun'
    cases hrun.symm.trans hok

/-- **The order of construction does not matter.**  Two graphs have been built from nodes and
edges, in whatever order and with whatever repetitions and back edges, and have the same
accesses and the same forward edges.  Then either can be analysed from an entry if the other
can; the runs return, and both fail or both succeed.  If they succeed, they give the same
states to the same nodes, in front of them and behind them, and the same verdicts on all
accesses of these nodes; only the order of the nodes in the answers can differ. -/
theorem run_of_sameFlow (p : Policy) (t : Journal) (g h : Graph) (hg : g.Built) (hh : h.Built)
    (hsame : g.SameFlow h) (entry : NodeId) :
    make g entry = make h entry ∧
    ∀ a, make g entry = .ok a → ∃ a' ended b' ended',
      (a.run p g t).result = .ok (a', ended) ∧ (a.run p h t).result = .ok (b', ended') ∧
      ((∃ e, ended = .error e) ↔ ∃ e, ended' = .error e) ∧
      ∀ table, ended = .ok table → ∃ table', ended' = .ok table' ∧ table.Perm table' ∧
        (∀ n, a'.solution.before? n = b'.solution.before? n ∧
          a'.solution.after? n = b'.solution.after? n) ∧
        ∃ summaries summaries', (a.verdicts p g t).result = .ok (a', .ok summaries) ∧
          (a.verdicts p h t).result = .ok (b', .ok summaries') ∧
          summaries.Perm summaries' ∧
          summaries.map Prod.fst = table.map Prod.fst ∧
          summaries'.map Prod.fst = table'.map Prod.fst ∧
          ∀ n summary, (n, summary) ∈ summaries → ∃ state, (n, state) ∈ table ∧
            (p.judgeAll state (g.accessesOf n) t).result = .ok summary := by
  refine ⟨by rw [make, make, hsame.has_eq], fun a hmake => ?_⟩
  have hentry := has_of_make hmake
  have hentry' := (hsame.of_has hentry).1
  obtain rfl := eq_of_make hmake
  obtain ⟨⟨a', ended⟩, -, hrun⟩ := exists_ends p g t (a := ⟨entry, Solution.empty, false⟩) rfl
  obtain ⟨⟨b', ended'⟩, -, hrun'⟩ := exists_ends p h t (a := ⟨entry, Solution.empty, false⟩) rfl
  refine ⟨a', ended, b', ended', hrun, hrun', ⟨?_, ?_⟩, ?_⟩
  · rintro ⟨e, rfl⟩
    exact exists_error_of_sameFlow hg.closed hh.closed hsame hentry hrun hrun'
  · rintro ⟨e, rfl⟩
    exact exists_error_of_sameFlow hh.closed hg.closed hsame.symm hentry' hrun' hrun
  · rintro table rfl
    obtain ⟨x, table', hx, hperm, hstates, summaries, hjudge⟩ :=
      exists_run_of_sameFlow hg.closed hh.closed hsame hentry' hrun
    obtain ⟨rfl, rfl⟩ := Prod.mk.inj (Except.ok.inj (hrun'.symm.trans hx))
    obtain ⟨summaries', hjudge', hsummaries⟩ := judgeNodes_of_sameFlow hsame hperm hjudge
    obtain ⟨hnodes, hjudged⟩ := nodes_of_judgeNodes hjudge
    refine ⟨table', rfl, hperm, hstates, summaries, summaries', ?_, ?_, hsummaries, hnodes,
      (nodes_of_judgeNodes hjudge').1, hjudged⟩
    · rw [verdicts_of_run hrun, hjudge]
    · rw [verdicts_of_run hrun', hjudge']

end Solver

/-- The diamond, built from its end: one forward edge is there twice, and another back edge. -/
def Graph.rebuilt : Graph where
  nodes := [⟨.number 3, [1, 2, 4]⟩, ⟨.number 2, [3]⟩, ⟨.number 1, [2]⟩, ⟨.number 0, [1]⟩]
  edges := [⟨.number 2, .number 3, .forward⟩, ⟨.number 1, .number 3, .forward⟩,
    ⟨.number 3, .number 1, .back⟩, ⟨.number 2, .number 3, .forward⟩,
    ⟨.number 0, .number 2, .forward⟩, ⟨.number 0, .number 1, .forward⟩]

theorem Graph.built_diamond : Graph.diamond.Built := by
  have h := @Built.node _ _ (.number 0) [1] none .empty rfl
  have h := @Built.node _ _ (.number 1) [2] none h rfl
  have h := @Built.node _ _ (.number 2) [3] none h rfl
  have h := @Built.node _ _ (.number 3) [1, 2, 4] none h rfl
  have h := @Built.edge _ _ (.number 0) (.number 1) .forward h rfl
  have h := @Built.edge _ _ (.number 0) (.number 2) .forward h rfl
  have h := @Built.edge _ _ (.number 1) (.number 3) .forward h rfl
  have h := @Built.edge _ _ (.number 2) (.number 3) .forward h rfl
  exact @Built.edge _ _ (.number 3) (.number 0) .back h rfl

/-- On the way, node 3 had other accesses. -/
theorem Graph.built_rebuilt : Graph.rebuilt.Built := by
  have h := @Built.node _ _ (.number 3) [7] none .empty rfl
  have h := @Built.node _ _ (.number 2) [3] none h rfl
  have h := @Built.edge _ _ (.number 2) (.number 3) .forward h rfl
  have h := @Built.node _ _ (.number 3) [1, 2, 4] none h rfl
  have h := @Built.node _ _ (.number 1) [2] none h rfl
  have h := @Built.edge _ _ (.number 1) (.number 3) .forward h rfl
  have h := @Built.edge _ _ (.number 3) (.number 1) .back h rfl
  have h := @Built.edge _ _ (.number 2) (.number 3) .forward h rfl
  have h := @Built.node _ _ (.number 0) [1] none h rfl
  have h := @Built.edge _ _ (.number 0) (.number 2) .forward h rfl
  exact @Built.edge _ _ (.number 0) (.number 1) .forward h rfl

theorem Graph.sameFlow_rebuilt : Graph.diamond.SameFlow Graph.rebuilt where
  accesses := by
    intro n
    by_cases hn : n ∈ Graph.diamond.ids
    · fin_cases hn <;> rfl
    · have hn' : n ∉ Graph.rebuilt.ids := by
        simpa [Graph.ids, Graph.diamond, Graph.rebuilt, and_comm, and_assoc, and_left_comm] using hn
      rw [← Graph.has_iff] at hn hn'
      rw [Graph.accesses, Graph.requireNode, if_neg hn]
      rw [Graph.accesses, Graph.requireNode, if_neg hn']
      rfl
  forward := by
    intro m n
    simp only [Graph.Forward, Graph.diamond, Graph.rebuilt, List.mem_cons, Edge.mk.injEq,
      List.not_mem_nil, reduceCtorEq, and_false, and_true, or_false]
    tauto

theorem Solver.run_of_sameFlow_rebuilt :
    Graph.diamond.Built ∧ Graph.rebuilt.Built ∧ Graph.diamond.SameFlow .rebuilt ∧
      ∃ a a' b' table table', Solver.make .diamond (.number 0) = .ok a ∧
        (a.run (.lruCache ⟨2⟩) .diamond none).result = .ok (a', .ok table) ∧
        (a.run (.lruCache ⟨2⟩) .rebuilt none).result = .ok (b', .ok table') ∧
        table.map Prod.fst = [.number 0, .number 2, .number 1, .number 3] ∧ table ≠ table' ∧
        table.Perm table' ∧ ∀ n, a'.solution.after? n = b'.solution.after? n := by
  refine ⟨Graph.built_diamond, Graph.built_rebuilt, Graph.sameFlow_rebuilt, ?_⟩
  obtain ⟨-, hsame⟩ := run_of_sameFlow (.lruCache ⟨2⟩) none .diamond .rebuilt
    Graph.built_diamond Graph.built_rebuilt Graph.sameFlow_rebuilt (.number 0)
  obtain ⟨a', ended, b', ended', hrun, hrun', -, hok⟩ := hsame _ rfl
  have hfound := hrun
  have hfound' := hrun'
  cbv at hfound hfound'
  obtain ⟨rfl, rfl⟩ := Prod.mk.inj (Except.ok.inj hfound)
  obtain ⟨rfl, rfl⟩ := Prod.mk.inj (Except.ok.inj hfound')
  obtain ⟨table', htable, hperm, hstates, -⟩ := hok _ rfl
  obtain rfl := Except.ok.inj htable
  exact ⟨_, _, _, _, _, rfl, hrun, hrun', rfl, by decide, hperm, fun n => (hstates n).2⟩

end Residency
