/-
Residency/Proofs/Judging.lean

Judging accesses.  The accesses of a node are judged while they are carried out once more,
from the state in front of the node: the verdict on an access is the verdict in the state
that the accesses before it leave (`judged_follow`), and judging succeeds whenever carrying
out the accesses does (`exists_judged`).

`verdicts_of_run` and `run_of_finished` bring a solver's verdicts down to this, whether it
has run before or not.
-/
import Residency.Proofs.EntrySets
import Residency.Proofs.Runs

namespace Residency

variable {p : Policy} {g : Graph} {entry : NodeId} {t : Journal}

/-! ### Verdicts -/

namespace State

variable {s : State} {a : Int}

/-- A hit is certain for the addresses in MUST. -/
theorem verdict_eq_alwaysHit : s.verdict a = .alwaysHit ↔ a ∈ s.must.addresses := by
  rw [verdict, ← EntrySet.holds_iff]
  split
  · simp [*]
  · split <;> simp [*]

/-- A miss is certain for the addresses in neither set. -/
theorem verdict_eq_alwaysMiss :
    s.verdict a = .alwaysMiss ↔ a ∉ s.must.addresses ∧ a ∉ s.may.addresses := by
  rw [verdict, ← EntrySet.holds_iff, ← EntrySet.holds_iff]
  split
  · simp [*]
  · split <;> simp [*]

end State

/-! ### One sequence of accesses -/

namespace Policy

/-- Judging an access notes the verdict in the state before it and carries it out. -/
theorem judge_eq_ok {done summary : Summary} {a : Int} :
    (p.judge done a t).result = .ok summary ↔ ∃ next,
      (p.access done.final a t).result = .ok next ∧
        summary = ⟨done.accesses ++ [(a, done.final.verdict a)], next⟩ := by
  rw [judge, Analysis.result_note_bind (by rfl), Analysis.result_bind_eq_ok]
  constructor
  · rintro ⟨next, hnext, h⟩
    exact ⟨next, hnext, (Analysis.result_pure_eq_ok.1 h).symm⟩
  · rintro ⟨next, hnext, rfl⟩
    exact ⟨next, hnext, rfl⟩

/-- Judging accesses carries them out, and each verdict is that of the state that the accesses
before it leave. -/
theorem judged_follow {done summary : Summary} {addresses : List Int}
    (h : (Analysis.follow p.judge done addresses t).result = .ok summary) :
    (p.walk done.final addresses t).result = .ok summary.final ∧
      ∃ judged, summary.accesses = done.accesses ++ judged ∧
        judged.map Prod.fst = addresses ∧
        ∀ (i : Nat) a v, judged[i]? = some (a, v) → ∃ s,
          (p.walk done.final (addresses.take i) t).result = .ok s ∧ v = s.verdict a := by
  induction addresses generalizing done with
  | nil =>
    obtain rfl := Analysis.result_follow_nil.1 h
    exact ⟨rfl, [], (List.append_nil _).symm, rfl, fun i a v hi => by simp at hi⟩
  | cons a addresses ih =>
    obtain ⟨_, hjudge, h⟩ := Analysis.result_follow_cons.1 h
    obtain ⟨next, hnext, rfl⟩ := judge_eq_ok.1 hjudge
    obtain ⟨hwalk, judged, haccesses, hfst, hjudged⟩ := ih h
    refine ⟨Analysis.result_follow_cons.2 ⟨next, hnext, hwalk⟩,
      (a, done.final.verdict a) :: judged, ?_, ?_, ?_⟩
    · rw [haccesses, List.append_assoc, List.singleton_append]
    · rw [List.map_cons, hfst]
    · intro i b v hi
      cases i with
      | zero =>
        obtain ⟨rfl, rfl⟩ := Prod.mk.inj (Option.some.inj hi)
        exact ⟨done.final, Analysis.result_follow_nil.2 rfl, rfl⟩
      | succ i =>
        obtain ⟨s, hs, hv⟩ := hjudged i b v hi
        exact ⟨s, Analysis.result_follow_cons.2 ⟨next, hnext, hs⟩, hv⟩

/-- Accesses that can be carried out can be judged. -/
theorem exists_judged (done : Summary) {addresses : List Int} {out : State}
    (h : (p.walk done.final addresses t).result = .ok out) :
    ∃ summary, (Analysis.follow p.judge done addresses t).result = .ok summary := by
  induction addresses generalizing done with
  | nil => exact ⟨done, Analysis.result_follow_nil.2 rfl⟩
  | cons a addresses ih =>
    obtain ⟨next, hnext, h⟩ := Analysis.result_follow_cons.1 h
    have hjudge := judge_eq_ok.2 ⟨next, hnext, rfl⟩
    obtain ⟨summary, hsummary⟩ := ih ⟨done.accesses ++ [(a, done.final.verdict a)], next⟩ h
    exact ⟨summary, Analysis.result_follow_cons.2 ⟨_, hjudge, hsummary⟩⟩

end Policy

/-! ### The nodes of a run -/

namespace Solver

theorem accesses_eq_ok {id : NodeId} {accesses : List Int} :
    g.accesses id = .ok accesses ↔ g.has id = true ∧ accesses = g.accessesOf id := by
  rw [Graph.accesses, Graph.requireNode]
  split
  · simp [*, bind, Except.bind, pure, Except.pure, eq_comm]
  · simp [*, bind, Except.bind, refuse]

/-- A node is judged by its accesses, from the state in front of it. -/
theorem judgeNode_eq_ok {c : NodeId × State} {o : Option (NodeId × Summary)} :
    (judgeNode p g c t).result = .ok o ↔
      ∃ summary, o = some (c.1, summary) ∧ g.has c.1 = true ∧
        (p.judgeAll c.2 (g.accessesOf c.1) t).result = .ok summary := by
  rw [judgeNode, Analysis.result_bind_eq_ok]
  constructor
  · rintro ⟨accesses, haccesses, h⟩
    obtain ⟨hid, rfl⟩ := accesses_eq_ok.1 haccesses
    obtain ⟨summary, hsummary, h⟩ := Analysis.result_bind_eq_ok.1 h
    exact ⟨summary, (Analysis.result_pure_eq_ok.1 h).symm, hid, hsummary⟩
  · rintro ⟨summary, rfl, hid, hsummary⟩
    exact ⟨_, accesses_eq_ok.2 ⟨hid, rfl⟩, Analysis.result_bind_eq_ok.2 ⟨summary, hsummary, rfl⟩⟩

/-- The summaries of a table are those of its nodes, one for each and in their order. -/
theorem judgeNodes_eq_ok {table : StateTable} {summaries : List (NodeId × Summary)} :
    (judgeNodes p g table t).result = .ok summaries ↔
      List.Forall₂ (fun node summary => summary.1 = node.1 ∧ g.has node.1 = true ∧
        (p.judgeAll node.2 (g.accessesOf node.1) t).result = .ok summary.2) table summaries := by
  rw [judgeNodes, Analysis.result_collect_some]
  · constructor
    · intro h
      refine h.imp ?_
      rintro node ⟨n, summary⟩ hnode
      obtain ⟨summary', heq, hid, hjudge⟩ := judgeNode_eq_ok.1 hnode
      obtain ⟨rfl, rfl⟩ := Prod.mk.inj (Option.some.inj heq)
      exact ⟨rfl, hid, hjudge⟩
    · intro h
      refine h.imp ?_
      rintro node ⟨n, summary⟩ ⟨rfl, hid, hjudge⟩
      exact judgeNode_eq_ok.2 ⟨summary, rfl, hid, hjudge⟩
  · rintro node h
    obtain ⟨_, heq, -⟩ := judgeNode_eq_ok.1 h
    cases heq

/-- Every summary belongs to a node of the table, in the order of the table. -/
theorem nodes_of_judgeNodes {table : StateTable} {summaries : List (NodeId × Summary)}
    (h : (judgeNodes p g table t).result = .ok summaries) :
    summaries.map Prod.fst = table.map Prod.fst ∧
      ∀ n summary, (n, summary) ∈ summaries → ∃ state, (n, state) ∈ table ∧
        (p.judgeAll state (g.accessesOf n) t).result = .ok summary := by
  induction judgeNodes_eq_ok.1 h with
  | nil => exact ⟨rfl, fun _ _ hmem => nomatch hmem⟩
  | @cons node summary table summaries hnode hrest ih =>
    obtain ⟨hn, -, hjudge⟩ := hnode
    obtain ⟨hfst, hmem⟩ := ih (judgeNodes_eq_ok.2 hrest)
    constructor
    · rw [List.map_cons, List.map_cons, hfst, hn]
    · intro n x hx
      rcases List.mem_cons.1 hx with rfl | hx
      · obtain rfl : n = node.1 := hn
        exact ⟨node.2, List.mem_cons_self, hjudge⟩
      · obtain ⟨state, hstate, hjudge⟩ := hmem n x hx
        exact ⟨state, List.mem_cons_of_mem _ hstate, hjudge⟩

/-- The nodes of a table can be judged if their accesses can be carried out. -/
theorem exists_judgeNodes {table : StateTable}
    (h : ∀ n state, (n, state) ∈ table →
      g.has n = true ∧ ∃ out, (p.walk state (g.accessesOf n) t).result = .ok out) :
    ∃ summaries, (judgeNodes p g table t).result = .ok summaries := by
  simp only [judgeNodes_eq_ok]
  induction table with
  | nil => exact ⟨[], .nil⟩
  | cons node table ih =>
    obtain ⟨n, state⟩ := node
    obtain ⟨hn, out, hout⟩ := h n state List.mem_cons_self
    obtain ⟨summary, hsummary⟩ := Policy.exists_judged ⟨[], state⟩ hout
    obtain ⟨summaries, hsummaries⟩ :=
      ih fun m x hx => h m x (List.mem_cons_of_mem (n, state) hx)
    exact ⟨(n, summary) :: summaries, .cons ⟨rfl, hn, hsummary⟩ hsummaries⟩

/-- After a run the verdicts are those on the nodes of its table. -/
theorem verdicts_of_run {a a' : Solver} {table : StateTable}
    (h : (a.run p g t).result = .ok (a', .ok table)) :
    (a.verdicts p g t).result = .ok (a', (judgeNodes p g table t).result) :=
  Analysis.result_bind_eq_ok.2 ⟨_, h, rfl⟩

theorem run_of_finished (p : Policy) (g : Graph) (t : Journal) (entry : NodeId)
    (s : Solution) :
    (run p g ⟨entry, s, true⟩ t).result = .ok (⟨entry, s, true⟩, .ok s.before) := rfl

/-- Every verdict is the verdict in a state that merges the paths to the access. -/
theorem verdicts_along_paths {R : Set (List Int) → State → Prop} (hR : ∀ t, p.Tracks t R)
    {a a' b : Solver} {table : StateTable} (hmake : make g entry = .ok a)
    (hentry : ∀ m, ¬g.Forward m entry) (hrun : (a.run p g t).result = .ok (a', .ok table))
    {t' : Journal} {summaries : List (NodeId × Summary)}
    (hverdicts : (a'.verdicts p g t').result = .ok (b, .ok summaries)) :
    summaries.map Prod.fst = table.map Prod.fst ∧
      ∀ n summary, (n, summary) ∈ summaries →
        summary.accesses.map Prod.fst = g.accessesOf n ∧
        ∀ (i : Nat) x v, summary.accesses[i]? = some (x, v) → ∃ s, v = s.verdict x ∧
          R ((· ++ (g.accessesOf n).take i) '' g.pathHistories entry n) s := by
  obtain ⟨s, hpaths, rfl, rfl⟩ := alongPaths_of_run hmake hentry hrun
  rw [verdicts_of_run (run_of_finished p g t' entry s), Except.ok.injEq, Prod.mk.injEq]
    at hverdicts
  obtain ⟨hnodes, hsummaries⟩ := nodes_of_judgeNodes hverdicts.2
  refine ⟨hnodes, fun n summary hmem => ?_⟩
  obtain ⟨state, hstate, hjudge⟩ := hsummaries n summary hmem
  obtain ⟨-, judged, haccesses, hfst, hjudged⟩ := Policy.judged_follow hjudge
  rw [List.nil_append] at haccesses
  rw [haccesses]
  refine ⟨hfst, fun i x v hi => ?_⟩
  obtain ⟨u, hwalk, hv⟩ := hjudged i x v hi
  exact ⟨u, hv, (hR t').walk ((hpaths.merges n state hstate).tracked (hR t)) hwalk⟩

/-- A solver that has run can judge its nodes, and judging without a run before is the same. -/
theorem exists_verdicts {a a' : Solver} {table : StateTable} (hmake : make g entry = .ok a)
    (hentry : ∀ m, ¬g.Forward m entry) (hrun : (a.run p g t).result = .ok (a', .ok table)) :
    ∃ summaries, (a'.verdicts p g t).result = .ok (a', .ok summaries) ∧
      (a.verdicts p g t).result = .ok (a', .ok summaries) := by
  obtain ⟨s, hpaths, rfl, rfl⟩ := alongPaths_of_run hmake hentry hrun
  obtain ⟨summaries, hsummaries⟩ := exists_judgeNodes fun n state h =>
    ⟨hpaths.has n state h, hpaths.walked n state h⟩
  refine ⟨summaries, ?_, ?_⟩
  · rw [verdicts_of_run (run_of_finished p g t entry s), hsummaries]
  · rw [verdicts_of_run hrun, hsummaries]

end Solver

end Residency
