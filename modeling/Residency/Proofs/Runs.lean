/-
Residency/Proofs/Runs.lean

The states of a run and the paths of the graph.  The states that a run finds are derivable,
from the right histories (`Solution.AlongPaths`): the state in front of a node merges the
histories of the forward paths from the entry to the node, all of them and no others.  It
needs that no forward edge leads back to the entry, since the solver starts the entry blank
whatever leads there.  A state that a run finds therefore has every property of derivable
states (`Solver.tracked_of_run`).

How a node starts is taken from the flow equations (`Starts`), so that this file does not
look at the solver itself.
-/
import Mathlib.Data.Set.Image
import Residency.Proofs.Dataflow

namespace Residency

variable {p : Policy} {g : Graph} {entry : NodeId} {t : Journal}

/-! ### States and the histories they merge -/

/-- Some derivation leads to the state and merges exactly the given histories. -/
def Merges (p : Policy) (t : Journal) (H : Set (List Int)) (s : State) : Prop :=
  ∃ d : Derivation, (d.state p t).result = .ok s ∧ {h | h ∈ d.histories} = H

/-- A property of derived states holds of states that merge histories. -/
theorem Merges.tracked {R : Set (List Int) → State → Prop} (hR : p.Tracks t R)
    {H : Set (List Int)} {s : State} (h : Merges p t H s) : R H s := by
  obtain ⟨d, hd, rfl⟩ := h
  exact d.tracked hR hd

theorem Merges.blank (p : Policy) (t : Journal) :
    Merges p t {[]} (State.blank p.capacity) := by
  refine ⟨.blank, rfl, ?_⟩
  ext h
  simp [Derivation.histories]

/-- A walk extends the histories that are merged. -/
theorem Merges.walk {H : Set (List Int)} {s s' : State} {addresses : List Int}
    (hs : Merges p t H s) (h : (p.walk s addresses t).result = .ok s') :
    Merges p t ((· ++ addresses) '' H) s' := by
  obtain ⟨d, hd, rfl⟩ := hs
  refine ⟨d.walk addresses, Derivation.state_walk.2 ⟨s, hd, h⟩, ?_⟩
  ext h
  exact Derivation.mem_histories_walk

/-- Derivations of several states, one for each. -/
theorem exists_derivations {ι : Type} {F : ι → Set (List Int)} {is : List ι} {ss : List State}
    (hss : List.Forall₂ (fun i s => Merges p t (F i) s) is ss) :
    ∃ ds : List Derivation, List.Forall₂ (fun d s => (d.state p t).result = .ok s) ds ss ∧
      ∀ h, (∃ d ∈ ds, h ∈ d.histories) ↔ ∃ i ∈ is, h ∈ F i := by
  induction hss with
  | nil => exact ⟨[], .nil, by simp⟩
  | @cons i s is ss hs _ ih =>
    obtain ⟨d, hd, hF⟩ := hs
    obtain ⟨ds, hds, hmem⟩ := ih
    refine ⟨d :: ds, .cons hd hds, fun h => ?_⟩
    rw [List.exists_mem_cons_iff, List.exists_mem_cons_iff, hmem, ← hF]
    rfl

/-- A join merges the histories of all its states. -/
theorem Merges.join {ι : Type} {F : ι → Set (List Int)} {is : List ι} {ss : List State}
    {s' : State} (hss : List.Forall₂ (fun i s => Merges p t (F i) s) is ss)
    (h : (p.join ss t).result = .ok s') : Merges p t {h | ∃ i ∈ is, h ∈ F i} s' := by
  obtain ⟨ds, hds, hmem⟩ := exists_derivations hss
  obtain ⟨s, u, rest, rfl, -⟩ := Policy.result_join.1 h
  -- a join has at least two states, hence at least two derivations
  obtain ⟨d, ds, -, hds', rfl⟩ := List.forall₂_cons_right_iff.1 hds
  obtain ⟨e, ds, -, -, rfl⟩ := List.forall₂_cons_right_iff.1 hds'
  refine ⟨.join d e ds, Derivation.state_join.2 ⟨_, hds, h⟩, ?_⟩
  ext h
  exact Derivation.mem_histories_join.trans (hmem h)

/-! ### Histories of paths -/

namespace Graph

/-- The accesses along the forward paths to a node. -/
def pathHistories (g : Graph) (entry n : NodeId) : Set (List Int) :=
  {h | ∃ visited, g.Path entry visited n ∧ g.accessesAlong visited = h}

/-- No path but the empty one leads to an entry without forward edges to it. -/
theorem pathHistories_entry (hentry : ∀ m, ¬g.Forward m entry) :
    g.pathHistories entry entry = {[]} := by
  ext h
  constructor
  · rintro ⟨visited, hpath, rfl⟩
    cases hpath with
    | here => rfl
    | step _ edge => exact absurd edge (hentry _)
  · rintro rfl
    exact ⟨[], .here, rfl⟩

/-- A loop around a branch whose arms meet again. -/
def diamond : Graph where
  nodes := [⟨.number 0, [1]⟩, ⟨.number 1, [2]⟩, ⟨.number 2, [3]⟩, ⟨.number 3, [1, 2, 4]⟩]
  edges := [⟨.number 0, .number 1, .forward⟩, ⟨.number 0, .number 2, .forward⟩,
    ⟨.number 1, .number 3, .forward⟩, ⟨.number 2, .number 3, .forward⟩,
    ⟨.number 3, .number 0, .back⟩]

theorem not_forward_diamond (m : NodeId) : ¬diamond.Forward m (.number 0) := by
  simp [Forward, diamond]

theorem mem_pathHistories_diamond :
    [1, 2] ∈ diamond.pathHistories (.number 0) (.number 3) ∧
      [1, 3] ∈ diamond.pathHistories (.number 0) (.number 3) := by
  constructor
  · refine ⟨[.number 0, .number 1], .step (.step .here ?_) ?_, rfl⟩
    · simp [Forward, diamond]
    · simp [Forward, diamond]
  · refine ⟨[.number 0, .number 2], .step (.step .here ?_) ?_, rfl⟩
    · simp [Forward, diamond]
    · simp [Forward, diamond]

/-- A path that goes on adds the accesses of its last node. -/
theorem accessesAlong_concat (g : Graph) (visited : List NodeId) (m : NodeId) :
    g.accessesAlong (visited ++ [m]) = g.accessesAlong visited ++ g.accessesOf m := by
  rw [accessesAlong, List.flatMap_append, List.flatMap_singleton]
  rfl

/-- A path to another node than the entry comes through a predecessor of the node. -/
theorem pathHistories_of_ne {n : NodeId} (hn : n ≠ entry) :
    g.pathHistories entry n = {h | ∃ m ∈ g.sourcesOf n (some .forward),
      h ∈ (· ++ g.accessesOf m) '' g.pathHistories entry m} := by
  ext h
  constructor
  · rintro ⟨visited, hpath, rfl⟩
    cases hpath with
    | here => exact absurd rfl hn
    | @step visited m _ hpath edge =>
      refine ⟨m, mem_sourcesOf_forward.2 edge, _, ⟨visited, hpath, rfl⟩, ?_⟩
      exact (accessesAlong_concat g visited m).symm
  · rintro ⟨m, hm, _, ⟨visited, hpath, rfl⟩, rfl⟩
    refine ⟨visited ++ [m], hpath.step (mem_sourcesOf_forward.1 hm), ?_⟩
    exact accessesAlong_concat g visited m

end Graph

/-! ### The states of a run -/

namespace Solution

theorem mem_after_of_after? {s : Solution} {id : NodeId} {state : State}
    (h : s.after? id = some state) : (id, state) ∈ s.after := by
  obtain ⟨l, l', hafter, -⟩ := List.lookup_eq_some_iff.1 h
  rw [hafter]
  exact List.mem_append_right _ List.mem_cons_self

/-- Settling a node adds its state in front. -/
theorem mem_before_settled {s : Solution} {id n : NodeId} {state out x : State} :
    (n, x) ∈ ((s.enter id state).leave id out).before ↔
      (n, x) ∈ s.before ∨ n = id ∧ x = state := by
  show (n, x) ∈ s.before ++ [(id, state)] ↔ _
  rw [List.mem_append, List.mem_singleton, Prod.mk.injEq]

/-- Settling a node adds its state behind. -/
theorem mem_after_settled {s : Solution} {id n : NodeId} {state out x : State} :
    (n, x) ∈ ((s.enter id state).leave id out).after ↔
      (n, x) ∈ s.after ∨ n = id ∧ x = out := by
  show (n, x) ∈ s.after ++ [(id, out)] ↔ _
  rw [List.mem_append, List.mem_singleton, Prod.mk.injEq]

/-- The states that are known belong to the forward paths to their nodes. -/
structure AlongPaths (p : Policy) (g : Graph) (entry : NodeId) (t : Journal) (s : Solution) :
    Prop where
  has : ∀ n state, (n, state) ∈ s.before → g.has n = true
  merges : ∀ n state, (n, state) ∈ s.before → Merges p t (g.pathHistories entry n) state
  walked : ∀ n state, (n, state) ∈ s.before →
    ∃ out, (p.walk state (g.accessesOf n) t).result = .ok out
  after : ∀ n out, (n, out) ∈ s.after → ∃ state, (n, state) ∈ s.before ∧
    (p.walk state (g.accessesOf n) t).result = .ok out

theorem AlongPaths.empty (p : Policy) (g : Graph) (entry : NodeId) (t : Journal) :
    Solution.empty.AlongPaths p g entry t where
  has := fun _ _ h => nomatch h
  merges := fun _ _ h => nomatch h
  walked := fun _ _ h => nomatch h
  after := fun _ _ h => nomatch h

/-- The state behind a node merges the paths that go through the node. -/
theorem AlongPaths.merges_after {s : Solution} (hs : s.AlongPaths p g entry t) {n : NodeId}
    {out : State} (h : (n, out) ∈ s.after) :
    Merges p t ((· ++ g.accessesOf n) '' g.pathHistories entry n) out := by
  obtain ⟨state, hstate, hout⟩ := hs.after n out h
  exact (hs.merges n state hstate).walk hout

/-- The state with which a node starts merges the paths to the node. -/
theorem AlongPaths.merges_start {s : Solution} (hs : s.AlongPaths p g entry t)
    (hentry : ∀ m, ¬g.Forward m entry) {id : NodeId} {state : State}
    (hstart : Starts p g entry t s id state) : Merges p t (g.pathHistories entry id) state := by
  have hafter : ∀ m out, s.after? m = some out →
      Merges p t ((· ++ g.accessesOf m) '' g.pathHistories entry m) out :=
    fun m out hout => hs.merges_after (mem_after_of_after? hout)
  cases hstart with
  | entry =>
    -- Blank is right because only the empty path leads to the entry.
    rw [Graph.pathHistories_entry hentry]
    exact Merges.blank p t
  | @single _ m _ hid hm hout =>
    have hone : {h | ∃ m' ∈ [m], h ∈ (· ++ g.accessesOf m') '' g.pathHistories entry m'} =
        (· ++ g.accessesOf m) '' g.pathHistories entry m := by
      ext h
      simp only [Set.mem_ofPred_eq, List.mem_singleton, exists_eq_left]
    rw [Graph.pathHistories_of_ne hid, hm, hone]
    exact hafter m state hout
  | joined hid _ houts hjoin =>
    rw [Graph.pathHistories_of_ne hid]
    exact Merges.join (houts.imp hafter) hjoin

/-- Only a node that is settled changes the solution, and it has all four properties. -/
theorem AlongPaths.turn (hentry : ∀ m, ¬g.Forward m entry) {c c' : Stage}
    (h : Turn p g entry t c c') (hs : c.2.AlongPaths p g entry t) :
    c'.2.AlongPaths p g entry t := by
  cases h with
  | known => exact hs
  | postponed => exact hs
  | @settled id rest s start state out _ hid hstart hstate hout =>
    refine ⟨?_, ?_, ?_, ?_⟩
    · intro n x hx
      rcases mem_before_settled.1 hx with hx | ⟨rfl, rfl⟩
      · exact hs.has n x hx
      · exact hid
    · intro n x hx
      rcases mem_before_settled.1 hx with hx | ⟨rfl, rfl⟩
      · exact hs.merges n x hx
      · exact hs.merges_start hentry (starts_of_startState? hstart hstate)
    · intro n x hx
      rcases mem_before_settled.1 hx with hx | ⟨rfl, rfl⟩
      · exact hs.walked n x hx
      · exact ⟨out, hout⟩
    · intro n x hx
      rcases mem_after_settled.1 hx with hx | ⟨rfl, rfl⟩
      · obtain ⟨y, hy, hwalk⟩ := hs.after n x hx
        exact ⟨y, mem_before_settled.2 (.inl hy), hwalk⟩
      · exact ⟨state, mem_before_settled.2 (.inr ⟨rfl, rfl⟩), hout⟩

/-- Turn after turn the states found merge the paths to their nodes. -/
theorem AlongPaths.turns (hentry : ∀ m, ¬g.Forward m entry) {c c' : Stage}
    (h : Relation.ReflTransGen (Turn p g entry t) c c') (hs : c.2.AlongPaths p g entry t) :
    c'.2.AlongPaths p g entry t := by
  induction h with
  | refl => exact hs
  | tail _ hturn ih => exact ih.turn hentry hturn

end Solution

namespace Solver

/-- A run that succeeds ends with states along the paths. -/
theorem alongPaths_of_run {a a' : Solver} {table : StateTable} (hmake : make g entry = .ok a)
    (hentry : ∀ m, ¬g.Forward m entry) (hrun : (a.run p g t).result = .ok (a', .ok table)) :
    ∃ s, s.AlongPaths p g entry t ∧ a' = ⟨entry, s, true⟩ ∧ table = s.before := by
  obtain ⟨s, hturns, ha', htable⟩ := turns_of_run hmake hrun
  exact ⟨s, Solution.AlongPaths.turns hentry hturns (.empty p g entry t), ha', htable⟩

/-- Wherever a run stops inside a node, the state there has what every state has that merges
the paths to this place. -/
theorem tracked_of_run {R : Set (List Int) → State → Prop} (hR : p.Tracks t R)
    {a a' : Solver} {table : StateTable} (hmake : make g entry = .ok a)
    (hentry : ∀ m, ¬g.Forward m entry) (hrun : (a.run p g t).result = .ok (a', .ok table))
    {n : NodeId} {state : State} (hn : (n, state) ∈ table) (i : Nat) :
    ∃ s, (p.walk state ((g.accessesOf n).take i) t).result = .ok s ∧
      R ((· ++ (g.accessesOf n).take i) '' g.pathHistories entry n) s := by
  obtain ⟨solution, hpaths, -, rfl⟩ := alongPaths_of_run hmake hentry hrun
  obtain ⟨out, hout⟩ := hpaths.walked n state hn
  -- The run has carried out all accesses of the node, so it has carried out the first ones.
  rw [← List.take_append_drop i (g.accessesOf n)] at hout
  obtain ⟨s, hs, -⟩ := Analysis.result_follow_append.1 hout
  exact ⟨s, hs, hR.walk ((hpaths.merges n state hn).tracked hR) hs⟩

end Solver

end Residency
