/-
Residency/Proofs/Dataflow.lean

The solver solves the flow equations.  The states in front of and behind the nodes are tied
together by three rules: the entry starts blank, another node starts from what its forward
predecessors leave (`Starts`), and the state behind a node is the state in front of it after
the node's accesses.  A run that succeeds ends with states that obey these rules, for the
nodes that can be settled and for no others (`Solver.run_solves`).

Two invariants go with every stage of a run.  `Solution.Sound` says that what is known obeys
the rules; a state that was found stays valid because the states behind other nodes are only
added, never changed.  `Stage.Complete` says that no node is lost: a node whose predecessors
are done has its state or is on the stack.  A node that is dropped waits for a predecessor,
and the last one of these puts it on the stack again.
-/
import Mathlib
import Residency.Flow.Path
import Residency.Proofs.Derivations
import Residency.Proofs.Turns

namespace Residency

variable {p : Policy} {g : Graph} {entry : NodeId} {t : Journal}

/-! ### Looking up -/

namespace Solution

variable {s : Solution} {n : NodeId}

/-- A node is entered if and only if it has a line in the table. -/
theorem entered_iff : s.entered n = true ↔ n ∈ s.before.map Prod.fst := by
  simp [entered]

theorem exists_lookup_iff {table : StateTable} :
    (∃ x, table.lookup n = some x) ↔ n ∈ table.map Prod.fst := by
  rw [← Option.isSome_iff_exists, List.lookup_isSome_iff, List.mem_map]
  simp only [beq_iff_eq, eq_comm (b := n)]

/-- A line at the end counts only for a name that was not there. -/
theorem lookup_concat (table : StateTable) (id : NodeId) (x : State) (n : NodeId) :
    (table ++ [(id, x)]).lookup n = (table.lookup n).or (if n = id then some x else none) := by
  rw [List.lookup_append, List.lookup_cons, List.lookup_nil]
  by_cases h : n = id
  · rw [if_pos h, h, beq_self_eq_true]
  · rw [if_neg h, beq_false_of_ne h]

/-- Settling a node gives it a state in front and changes no other. -/
theorem before?_settled (s : Solution) (id : NodeId) (state out : State) (n : NodeId) :
    ((s.enter id state).leave id out).before? n =
      (s.before? n).or (if n = id then some state else none) :=
  lookup_concat s.before id state n

/-- Settling a node gives it a state behind and changes no other. -/
theorem after?_settled (s : Solution) (id : NodeId) (state out : State) (n : NodeId) :
    ((s.enter id state).leave id out).after? n =
      (s.after? n).or (if n = id then some out else none) :=
  lookup_concat s.after id out n

/-- The states behind some nodes, taken together, are the states behind each. -/
theorem forall₂_after?_of_mapM {ms : List NodeId} {outs : List State}
    (h : ms.mapM s.after? = some outs) :
    List.Forall₂ (fun m out => s.after? m = some out) ms outs := by
  induction ms generalizing outs with
  | nil =>
    obtain rfl : [] = outs := by simpa using h
    exact .nil
  | cons m ms ih =>
    rw [List.mapM_cons] at h
    obtain ⟨out, hout, h⟩ := Option.bind_eq_some_iff.1 h
    obtain ⟨outs', houts, h⟩ := Option.bind_eq_some_iff.1 h
    obtain rfl : out :: outs' = outs := by simpa using h
    exact .cons hout (ih houts)

theorem exists_mapM_after? {ms : List NodeId} (h : ∀ m ∈ ms, ∃ out, s.after? m = some out) :
    ∃ outs, ms.mapM s.after? = some outs := by
  induction ms with
  | nil => exact ⟨[], rfl⟩
  | cons m ms ih =>
    obtain ⟨out, hout⟩ := h m List.mem_cons_self
    obtain ⟨outs, houts⟩ := ih fun m' hm' => h m' (List.mem_cons_of_mem m hm')
    exact ⟨out :: outs, by simp [List.mapM_cons, hout, houts]⟩

end Solution

/-! ### Where a node starts -/

/-- Apart from the entry a node starts from the states behind its predecessors, from the one there
is or from their join. -/
theorem outs_of_startState? {s : Solution} {n : NodeId} {start : Analysis State}
    (hstart : startState? p g entry s n = some start) (hn : n ≠ entry) : ∃ outs,
      List.Forall₂ (fun m out => s.after? m = some out) (g.sourcesOf n (some .forward)) outs ∧
        ((∃ out, outs = [out] ∧ start = pure out) ∨ outs.length ≠ 1 ∧ start = p.join outs) := by
  rw [startState?, if_neg hn] at hstart
  cases houts : (g.sourcesOf n (some .forward)).mapM s.after? with
  | none =>
    rw [houts] at hstart
    cases hstart
  | some outs =>
    refine ⟨outs, Solution.forall₂_after?_of_mapM houts, ?_⟩
    rw [houts] at hstart
    rcases outs with _ | ⟨out, _ | ⟨out', outs⟩⟩
    · exact .inr ⟨by simp, (Option.some.inj hstart).symm⟩
    · exact .inl ⟨out, rfl, (Option.some.inj hstart).symm⟩
    · exact .inr ⟨by simp, (Option.some.inj hstart).symm⟩

/-- What holds of all states behind predecessors, seen from the list of them. -/
theorem forall_outs_iff {s : Solution} {n : NodeId} {outs : List State}
    (houts : List.Forall₂ (fun m out => s.after? m = some out) (g.sourcesOf n (some .forward)) outs)
    {P : State → Prop} :
    (∀ out ∈ outs, P out) ↔ ∀ m out, g.Forward m n → s.after? m = some out → P out := by
  have hlist : ∀ {ms : List NodeId} {outs : List State},
      List.Forall₂ (fun m out => s.after? m = some out) ms outs →
        ((∀ out ∈ outs, P out) ↔ ∀ m ∈ ms, ∀ out, s.after? m = some out → P out) := by
    intro ms outs h
    induction h with
    | nil => simp
    | @cons m out ms outs hout _ ih =>
      rw [List.forall_mem_cons, List.forall_mem_cons, ih]
      refine and_congr_left fun _ => ⟨fun hP x hx => ?_, fun hP => hP out hout⟩
      obtain rfl := Option.some.inj (hout.symm.trans hx)
      exact hP
  rw [hlist houts]
  constructor
  · intro hP m out hm
    exact hP m (Graph.mem_sourcesOf_forward.2 hm) out
  · intro hP m hm out
    exact hP m out (Graph.mem_sourcesOf_forward.1 hm)

/-! ### The equations -/

/-- The state in front of a node, from the states behind its forward predecessors. -/
inductive Starts (p : Policy) (g : Graph) (entry : NodeId) (t : Journal) (s : Solution) :
    NodeId → State → Prop
  /-- The entry starts blank, whatever leads there. -/
  | entry : Starts p g entry t s entry (State.blank p.capacity)
  /-- The only forward edge hands its state on. -/
  | single {n m : NodeId} {state : State} (hn : n ≠ entry)
      (hm : g.sourcesOf n (some .forward) = [m]) (hout : s.after? m = some state) :
      Starts p g entry t s n state
  /-- The states of several edges are joined in the order of the edges. -/
  | joined {n : NodeId} {outs : List State} {state : State} (hn : n ≠ entry)
      (hmany : (g.sourcesOf n (some .forward)).length ≠ 1)
      (houts : List.Forall₂ (fun m out => s.after? m = some out)
        (g.sourcesOf n (some .forward)) outs)
      (hjoin : (p.join outs t).result = .ok state) : Starts p g entry t s n state

/-- What the solver starts a node from is what the equations ask for. -/
theorem starts_of_startState? {s : Solution} {n : NodeId} {start : Analysis State} {state : State}
    (hstart : startState? p g entry s n = some start) (hstate : (start t).result = .ok state) :
    Starts p g entry t s n state := by
  by_cases hn : n = entry
  · rw [hn, startState?_entry] at hstart
    obtain rfl := Option.some.inj hstart
    obtain rfl := Except.ok.inj hstate
    rw [hn]
    exact .entry
  · obtain ⟨outs, houts, ⟨only, rfl, rfl⟩ | ⟨hmany, rfl⟩⟩ := outs_of_startState? hstart hn
    · obtain rfl := Analysis.result_pure_eq_ok.1 hstate
      obtain ⟨m, ms, hm, hms, hsources⟩ := List.forall₂_cons_right_iff.1 houts
      rw [List.forall₂_nil_right_iff] at hms
      rw [hms] at hsources
      exact .single hn hsources hm
    · exact .joined hn (houts.length_eq ▸ hmany) houts hstate

/-- A node other than the entry starts only from predecessors, and all of them are done. -/
theorem Starts.predecessors {s : Solution} {n : NodeId} {state : State}
    (h : Starts p g entry t s n state) (hn : n ≠ entry) :
    (∃ m, g.Forward m n) ∧ ∀ m, g.Forward m n → ∃ out, s.after? m = some out := by
  simp only [← Graph.mem_sourcesOf_forward]
  cases h with
  | entry => exact absurd rfl hn
  | @single _ m _ _ hm hout =>
    rw [hm]
    refine ⟨⟨m, List.mem_singleton_self m⟩, fun m' hm' => ?_⟩
    obtain rfl := List.mem_singleton.1 hm'
    exact ⟨_, hout⟩
  | joined _ _ houts hjoin =>
    -- A join succeeds only on two states or more, so there is an edge.
    obtain ⟨out, _, _, rfl, -⟩ := Policy.result_join.1 hjoin
    obtain ⟨m, ms, -, -, hsources⟩ := List.forall₂_cons_right_iff.1 houts
    refine ⟨⟨m, hsources ▸ List.mem_cons_self⟩, fun m' hm' => ?_⟩
    obtain ⟨i, hi, rfl⟩ := List.getElem_of_mem hm'
    exact ⟨_, houts.get hi (houts.length_eq ▸ hi)⟩

/-- A node may start as before when more nodes are settled. -/
theorem Starts.mono {s s' : Solution} (hs : ∀ m out, s.after? m = some out → s'.after? m = some out)
    {n : NodeId} {state : State} (h : Starts p g entry t s n state) :
    Starts p g entry t s' n state := by
  cases h with
  | entry => exact .entry
  | single hn hm hout => exact .single hn hm (hs _ _ hout)
  | joined hn hmany houts hjoin => exact .joined hn hmany (houts.imp hs) hjoin

/-- The states of a solution obey the flow equations, at the nodes that can be settled. -/
structure Solution.Solves (p : Policy) (g : Graph) (entry : NodeId) (t : Journal)
    (s : Solution) : Prop where
  /-- The nodes with a state are those that can be settled. -/
  nodes : ∀ n, (∃ state, s.before? n = some state) ↔ g.Settled entry n
  /-- States in front of nodes and behind them belong to the same nodes. -/
  behind : ∀ n, (∃ out, s.after? n = some out) ↔ ∃ state, s.before? n = some state
  /-- The entry starts blank. -/
  entryBlank : s.before? entry = some (State.blank p.capacity)
  /-- Each node starts from what its predecessors leave. -/
  starts : ∀ n state, s.before? n = some state → Starts p g entry t s n state
  /-- The state behind a node comes from the state in front by the accesses of the node. -/
  walked : ∀ n state out, s.before? n = some state → s.after? n = some out →
    (p.walk state (g.accessesOf n) t).result = .ok out

/-! ### What is known is right -/

namespace Solution

/-- What is known so far obeys the equations. -/
structure Sound (p : Policy) (g : Graph) (entry : NodeId) (t : Journal) (s : Solution) :
    Prop where
  nodup : (s.before.map Prod.fst).Nodup
  keys : s.after.map Prod.fst = s.before.map Prod.fst
  settled : ∀ n, s.entered n = true → g.Settled entry n
  starts : ∀ n state, s.before? n = some state → Starts p g entry t s n state
  walked : ∀ n state out, s.before? n = some state → s.after? n = some out →
    (p.walk state (g.accessesOf n) t).result = .ok out

namespace Sound

variable {s : Solution} {id n : NodeId} {state out : State}

theorem empty (p : Policy) (g : Graph) (entry : NodeId) (t : Journal) :
    Solution.empty.Sound p g entry t where
  nodup := List.nodup_nil
  keys := rfl
  settled := fun _ h => nomatch h
  starts := fun _ _ h => nomatch h
  walked := fun _ _ _ h => nomatch h

theorem entered_iff_before? (s : Solution) (n : NodeId) :
    s.entered n = true ↔ ∃ state, s.before? n = some state := by
  rw [entered_iff, before?, exists_lookup_iff]

/-- In a sound solution a node has a state in front of it if and only if it has one behind it. -/
theorem entered_iff_after? (hs : s.Sound p g entry t) (n : NodeId) :
    s.entered n = true ↔ ∃ out, s.after? n = some out := by
  rw [entered_iff, after?, exists_lookup_iff, hs.keys]

theorem before?_eq_none (h : s.entered id = false) : s.before? id = none := by
  cases hb : s.before? id with
  | none => rfl
  | some state =>
    rw [(entered_iff_before? s id).2 ⟨state, hb⟩] at h
    cases h

theorem after?_eq_none (hs : s.Sound p g entry t) (h : s.entered id = false) :
    s.after? id = none := by
  cases ha : s.after? id with
  | none => rfl
  | some out =>
    rw [(hs.entered_iff_after? id).2 ⟨out, ha⟩] at h
    cases h

/-- A new node that starts and is walked as the equations say leaves them in force. -/
theorem settle (hs : s.Sound p g entry t) (hid : s.entered id = false)
    (hstart : Starts p g entry t s id state)
    (hout : (p.walk state (g.accessesOf id) t).result = .ok out) :
    ((s.enter id state).leave id out).Sound p g entry t := by
  have hbefore := before?_eq_none hid
  have hafter := hs.after?_eq_none hid
  -- The states behind other nodes are as before.
  have hgrows : ∀ m x, s.after? m = some x →
      ((s.enter id state).leave id out).after? m = some x := by
    intro m x hx
    rw [after?_settled, hx]
    rfl
  constructor
  · show ((s.before ++ [(id, state)]).map Prod.fst).Nodup
    rw [List.map_append, List.nodup_append]
    refine ⟨hs.nodup, List.nodup_singleton _, ?_⟩
    intro n hn m hm
    obtain rfl : m = id := List.mem_singleton.1 hm
    rintro rfl
    rw [entered_iff.2 hn] at hid
    cases hid
  · show (s.after ++ [(id, out)]).map Prod.fst = (s.before ++ [(id, state)]).map Prod.fst
    rw [List.map_append, List.map_append, hs.keys]
    rfl
  · intro n hn
    rw [entered_settled, Bool.or_eq_true, beq_iff_eq] at hn
    rcases hn with hn | rfl
    · exact hs.settled n hn
    · by_cases hentry : id = entry
      · rw [hentry]
        exact .entry
      · obtain ⟨hsome, hall⟩ := hstart.predecessors hentry
        exact .node hsome fun m hm => hs.settled m ((hs.entered_iff_after? m).2 (hall m hm))
  · -- A state found earlier stays valid, since nothing behind its predecessors changes.
    intro n x hx
    apply Starts.mono hgrows
    rw [before?_settled] at hx
    by_cases hn : n = id
    · rw [hn, hbefore, if_pos rfl] at hx
      obtain rfl := Option.some.inj hx
      rw [hn]
      exact hstart
    · rw [if_neg hn, Option.or_none] at hx
      exact hs.starts n x hx
  · intro n x y hx hy
    rw [before?_settled] at hx
    rw [after?_settled] at hy
    by_cases hn : n = id
    · rw [hn, hbefore, if_pos rfl] at hx
      rw [hn, hafter, if_pos rfl] at hy
      obtain rfl := Option.some.inj hx
      obtain rfl := Option.some.inj hy
      rw [hn]
      exact hout
    · rw [if_neg hn, Option.or_none] at hx hy
      exact hs.walked n x y hx hy

/-- A turn keeps a solution sound. -/
theorem turn {c c' : Stage} (h : Turn p g entry t c c') (hc : c.2.Sound p g entry t) :
    c'.2.Sound p g entry t := by
  cases h with
  | known => exact hc
  | postponed => exact hc
  | settled hs _ hstart hstate hout _ =>
    exact hc.settle hs (starts_of_startState? hstart hstate) hout

end Sound

end Solution

/-! ### No node is lost -/

/-- A node whose predecessors are done has its state or is on the stack. -/
structure Stage.Complete (g : Graph) (entry : NodeId) (c : Stage) : Prop where
  entry : entry ∈ c.1 ∨ c.2.entered entry = true
  ready : ∀ n, (∃ m, g.Forward m n) → (∀ m, g.Forward m n → c.2.entered m = true) →
    n ∈ c.1 ∨ c.2.entered n = true

namespace Stage.Complete

variable {id : NodeId} {rest : List NodeId} {s : Solution}

/-- Dropping a node loses nothing if the node has its state or cannot start yet. -/
theorem drop (hc : Stage.Complete g entry (id :: rest, s))
    (hid : s.entered id = true ∨ id ≠ entry ∧ ∃ m, g.Forward m id ∧ s.entered m = false) :
    Stage.Complete g entry (rest, s) := by
  constructor
  · rcases hc.entry with hmem | hentered
    · rcases List.mem_cons.1 hmem with rfl | hmem
      · rcases hid with hid | ⟨hne, -⟩
        · exact .inr hid
        · exact absurd rfl hne
      · exact .inl hmem
    · exact .inr hentered
  · intro n hsome hall
    rcases hc.ready n hsome hall with hmem | hentered
    · rcases List.mem_cons.1 hmem with rfl | hmem
      · rcases hid with hid | ⟨-, m, hm, hnot⟩
        · exact .inr hid
        · rw [show s.entered m = true from hall m hm] at hnot
          cases hnot
      · exact .inl hmem
    · exact .inr hentered

/-- Settling a node makes nobody ready but its successors, and these go on the stack. -/
theorem settle (hc : Stage.Complete g entry (id :: rest, s)) (state out : State) :
    Stage.Complete g entry
      ((g.targetsOf id (some .forward)).reverse ++ rest, (s.enter id state).leave id out) := by
  have hgrows : ∀ n, s.entered n = true ∨ n = id →
      ((s.enter id state).leave id out).entered n = true := by
    intro n hn
    rw [Solution.entered_settled, Bool.or_eq_true, beq_iff_eq, eq_comm (a := id)]
    exact hn
  have hkeep : ∀ n, n ∈ id :: rest ∨ s.entered n = true →
      n ∈ (g.targetsOf id (some .forward)).reverse ++ rest ∨
        ((s.enter id state).leave id out).entered n = true := by
    rintro n (hmem | hentered)
    · rcases List.mem_cons.1 hmem with rfl | hmem
      · exact .inr (hgrows n (.inr rfl))
      · exact .inl (List.mem_append_right _ hmem)
    · exact .inr (hgrows n (.inl hentered))
  constructor
  · exact hkeep entry hc.entry
  · intro n hsome hall
    by_cases hsucc : g.Forward id n
    · refine .inl (List.mem_append_left _ (List.mem_reverse.2 ?_))
      exact Graph.mem_targetsOf_forward.2 hsucc
    · refine hkeep n (hc.ready n hsome fun m hm => ?_)
      have hentered := hall m hm
      rw [Solution.entered_settled, Bool.or_eq_true, beq_iff_eq] at hentered
      rcases hentered with hentered | rfl
      · exact hentered
      · exact absurd hm hsucc

/-- A turn keeps a stage complete: what can be settled is on the stack or will be put there. -/
theorem turn {c c' : Stage} (h : Turn p g entry t c c') (hs : c.2.Sound p g entry t)
    (hc : Stage.Complete g entry c) : Stage.Complete g entry c' := by
  cases h with
  | known hid => exact hc.drop (.inl hid)
  | @postponed id rest s _ _ hstart =>
    refine hc.drop (.inr ?_)
    by_cases hentry : id = entry
    · rw [hentry, startState?_entry] at hstart
      cases hstart
    · refine ⟨hentry, ?_⟩
      rw [startState?, if_neg hentry] at hstart
      -- If all predecessors were done, their states could be looked up and the node started.
      by_contra hnone
      have hdone : ∀ m ∈ g.sourcesOf id (some .forward), ∃ out, s.after? m = some out := by
        intro m hm
        rw [← hs.entered_iff_after?, ← Bool.not_eq_false]
        exact fun hm' => hnone ⟨m, Graph.mem_sourcesOf_forward.1 hm, hm'⟩
      obtain ⟨outs, houts⟩ := Solution.exists_mapM_after? hdone
      rw [houts] at hstart
      match outs, hstart with
      | [], hstart => cases hstart
      | [_], hstart => cases hstart
      | _ :: _ :: _, hstart => cases hstart
  | settled => exact hc.settle _ _

end Stage.Complete

/-! ### Whole runs -/

/-- However many turns a run has taken, its solution is sound and its stage complete. -/
theorem sound_and_complete_of_turns {c : Stage}
    (h : Relation.ReflTransGen (Turn p g entry t) ([entry], Solution.empty) c) :
    c.2.Sound p g entry t ∧ Stage.Complete g entry c := by
  induction h with
  | refl =>
    refine ⟨.empty p g entry t, .inl (List.mem_singleton_self entry), ?_⟩
    rintro n ⟨m, hm⟩ hall
    exact nomatch hall m hm
  | tail _ hturn ih => exact ⟨.turn hturn ih.1, .turn hturn ih.1 ih.2⟩

/-- A sound solution with nothing left to do solves the equations. -/
theorem Solution.Sound.solves {s : Solution} (hs : s.Sound p g entry t)
    (hc : Stage.Complete g entry ([], s)) : s.Solves p g entry t := by
  have hentered : ∀ n, g.Settled entry n → s.entered n = true := by
    intro n hn
    induction hn with
    | entry => exact hc.entry.resolve_left List.not_mem_nil
    | @node n hsome _ ih => exact (hc.ready n hsome ih).resolve_left List.not_mem_nil
  have hnodes : ∀ n, (∃ state, s.before? n = some state) ↔ g.Settled entry n := by
    intro n
    rw [← Sound.entered_iff_before?]
    exact ⟨hs.settled n, hentered n⟩
  refine ⟨hnodes, fun n => ?_, ?_, hs.starts, hs.walked⟩
  · rw [← hs.entered_iff_after?, Sound.entered_iff_before?]
  · obtain ⟨state, hstate⟩ := (hnodes entry).2 .entry
    cases hs.starts entry state hstate with
    | entry => exact hstate
    | single hn => exact absurd rfl hn
    | joined hn => exact absurd rfl hn

namespace Solver

/-- A solver that has finished answers from what it has found. -/
theorem ask_of_finished {n : NodeId} (hn : g.has n = true) (s : Solution)
    (f : Solution → Option State) (t : Journal) :
    (ask p g ⟨entry, s, true⟩ n f t).result = .ok (⟨entry, s, true⟩, .ok (f s)) := by
  rw [ask, Graph.requireNode, if_pos hn]
  rfl

/-- **The solver solves the flow equations.**  Its loop takes at most one turn more than the
graph has forward edges and halts, and the run returns.  If it succeeds, each node that can be
settled, and no other, has a state in front of it and a state behind it, and these obey the
equations: the entry starts blank, every other node from the state behind its only forward
predecessor or from the join of all of them in the order of the edges, and the accesses of a node
lead from the one state to the other. -/
theorem run_solves (p : Policy) (g : Graph) (entry : NodeId) (a : Solver)
    (hmake : make g entry = .ok a) (t : Journal) :
    (∀ cs, List.IsChain (Turn p g entry t) (([entry], a.solution) :: cs) →
      cs.length ≤ g.forwardCount + 1) ∧
    (∃ c r, Relation.ReflTransGen (Turn p g entry t) ([entry], a.solution) c ∧
      Halts p g entry t c r ∧ (solve p g entry [entry] a.solution t).result = .ok r) ∧
    (∃ a' ended, (a.run p g t).result = .ok (a', ended)) ∧
    ∀ a' table, (a.run p g t).result = .ok (a', .ok table) →
      a'.solution.Solves p g entry t ∧
      (table = a'.solution.before ∧ (table.map Prod.fst).Nodup) ∧
      ∀ t' n, g.has n = true →
        (a'.stateBefore p g n t').result = .ok (a', .ok (a'.solution.before? n)) ∧
        (a'.stateAfter p g n t').result = .ok (a', .ok (a'.solution.after? n)) := by
  refine ⟨fun cs hcs => ?_, exists_halt p g entry t ([entry], a.solution), ?_, ?_⟩
  · have hlength := length_le_of_turns hcs
    have hahead := a.solution.ahead_le g
    simp only [Stage.measure, List.length_singleton] at hlength
    omega
  · obtain rfl := eq_of_make hmake
    obtain ⟨⟨a', ended⟩, -, hrun⟩ := exists_ends p g t (a := ⟨entry, Solution.empty, false⟩) rfl
    exact ⟨a', ended, hrun⟩
  · intro a' table hrun
    obtain ⟨s, hturns, rfl, rfl⟩ := turns_of_run hmake hrun
    obtain ⟨hsound, hcomplete⟩ := sound_and_complete_of_turns hturns
    refine ⟨hsound.solves hcomplete, ⟨rfl, hsound.nodup⟩, fun t' n hn => ⟨?_, ?_⟩⟩
    · exact ask_of_finished hn s _ t'
    · exact ask_of_finished hn s _ t'

end Solver

/-- Parallel edges, a loop through the entry, an edge from a node to itself and one from a node
that nothing leads to. -/
def Graph.tangled : Graph where
  nodes := [⟨.number 0, [1]⟩, ⟨.number 1, [2]⟩, ⟨.number 2, [3, 1]⟩, ⟨.number 3, []⟩,
    ⟨.number 4, [4]⟩, ⟨.number 5, [5]⟩, ⟨.number 6, [1]⟩]
  edges := [⟨.number 0, .number 1, .forward⟩, ⟨.number 0, .number 1, .forward⟩,
    ⟨.number 0, .number 2, .forward⟩, ⟨.number 1, .number 3, .forward⟩,
    ⟨.number 2, .number 3, .forward⟩, ⟨.number 3, .number 0, .forward⟩,
    ⟨.number 3, .number 4, .forward⟩, ⟨.number 4, .number 4, .forward⟩,
    ⟨.number 5, .number 6, .forward⟩, ⟨.number 3, .number 6, .forward⟩,
    ⟨.number 3, .number 1, .back⟩]

theorem Solver.run_solves_tangled : ∃ a a' table,
    Solver.make .tangled (.number 0) = .ok a ∧
    (a.run (.lruCache ⟨2⟩) .tangled none).result = .ok (a', .ok table) ∧
    table.map Prod.fst = [.number 0, .number 2, .number 1, .number 3] ∧
    a'.solution.Solves (.lruCache ⟨2⟩) .tangled (.number 0) none ∧
    Graph.tangled.Settled (.number 0) (.number 3) ∧
    ¬Graph.tangled.Settled (.number 0) (.number 6) := by
  refine ⟨_, _, _, rfl, by cbv, rfl, ?_⟩
  obtain ⟨-, -, -, hrun⟩ := run_solves (.lruCache ⟨2⟩) .tangled (.number 0) _ rfl none
  obtain ⟨hsolves, -⟩ := hrun _ _ (by cbv)
  refine ⟨hsolves, (hsolves.nodes (.number 3)).1 ⟨_, by cbv⟩, fun hsettled => ?_⟩
  obtain ⟨state, hstate⟩ := (hsolves.nodes (.number 6)).2 hsettled
  cases hstate

end Residency
