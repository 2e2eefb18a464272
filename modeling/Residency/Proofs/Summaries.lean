/-
Residency/Proofs/Summaries.lean

Summaries and states.  Accesses are carried out twice: once by the solver, which keeps the
state behind a node, and once more when they are judged.  The two walks stay in step.  Judging
succeeds where carrying out the accesses does, the verdict on each access is the verdict in the
state that the accesses before it leave, and the summary ends with the state that carrying them
out ends with (`Policy.exists_judged_of_walk`).  So the summaries of a solver that has run belong to
the nodes of the run, and each ends with the state behind its node
(`Policy.summaries_agree`).
-/
import Mathlib
import Residency.Proofs.Judging
import Residency.Proofs.Reachability

namespace Residency

variable {p : Policy} {g : Graph} {entry : NodeId} {t : Journal}

/-- Every access of a summary has one of the three verdicts. -/
theorem Summary.count_add_count_add_count (s : Summary) :
    s.count .alwaysHit + s.count .alwaysMiss + s.count .notClassified = s.accesses.length := by
  simp only [count]
  induction s.accesses with
  | nil => rfl
  | cons a accesses ih =>
    obtain ⟨x, v⟩ := a
    simp only [List.countP_cons, List.length_cons]
    cases v <;> simp <;> omega

namespace Policy

/-- What judging accesses in order amounts to, from the state in which they start and the state
in which they end. -/
structure Judged (p : Policy) (t : Journal) (s : State) (addresses : List Int) (out : State)
    (summary : Summary) : Prop where
  /-- The summary ends with the state behind the accesses. -/
  final : summary.final = out
  /-- The summary lists the accesses and no others. -/
  length : summary.accesses.length = addresses.length
  /-- Each access has its verdict in the state that those in front of it leave. -/
  verdict : ∀ i x, addresses[i]? = some x → ∃ u,
    (p.walk s (addresses.take i) t).result = .ok u ∧ summary.accesses[i]? = some (x, u.verdict x)
  /-- The numbers of hits, misses and other accesses add up. -/
  counts : summary.count .alwaysHit + summary.count .alwaysMiss + summary.count .notClassified =
    addresses.length

/-- Judging is in step with carrying out. -/
theorem judged_of_judgeAll {s : State} {addresses : List Int} {summary : Summary}
    (h : (p.judgeAll s addresses t).result = .ok summary) :
    (p.walk s addresses t).result = .ok summary.final ∧
      p.Judged t s addresses summary.final summary := by
  obtain ⟨hwalk, judged, haccesses, hfst, hjudged⟩ := judged_follow h
  rw [List.nil_append] at haccesses
  have hlength : summary.accesses.length = addresses.length := by
    rw [haccesses, ← hfst, List.length_map]
  refine ⟨hwalk, rfl, hlength, fun i x hi => ?_, ?_⟩
  · rw [← hfst, List.getElem?_map] at hi
    obtain ⟨⟨y, v⟩, hy, rfl⟩ := Option.map_eq_some_iff.1 hi
    obtain ⟨u, hu, rfl⟩ := hjudged i y v hy
    exact ⟨u, hu, by rw [haccesses, hy]⟩
  · rw [summary.count_add_count_add_count, hlength]

/-- Where accesses can be carried out they can be judged. -/
theorem exists_judged_of_walk {s out : State} {addresses : List Int}
    (h : (p.walk s addresses t).result = .ok out) :
    ∃ summary, (p.judgeAll s addresses t).result = .ok summary ∧
      p.Judged t s addresses out summary := by
  obtain ⟨summary, hsummary⟩ := exists_judged ⟨[], s⟩ h
  obtain ⟨hwalk, hjudged⟩ := judged_of_judgeAll hsummary
  obtain rfl := Except.ok.inj (hwalk.symm.trans h)
  exact ⟨summary, hsummary, hjudged⟩

end Policy

namespace Solver

/-- After a run that worked off its stack a summary ends with the state behind its node. -/
theorem final_of_turns {s : Solution} {summaries : List (NodeId × Summary)}
    (hturns : Relation.ReflTransGen (Turn p g entry t) ([entry], Solution.empty) ([], s))
    (hjudge : (judgeNodes p g s.before t).result = .ok summaries) {n : NodeId} {summary : Summary}
    (hmem : (n, summary) ∈ summaries) :
    g.has n = true ∧ s.after? n = some summary.final := by
  obtain ⟨hsound, hcomplete⟩ := sound_and_complete_of_turns hturns
  have hs := hsound.solves hcomplete
  obtain ⟨state, hstate, hsummary⟩ := (nodes_of_judgeNodes hjudge).2 n summary hmem
  have hbefore := (Solution.lookup_eq_some_iff_mem hsound.nodup).2 hstate
  obtain ⟨out, hout⟩ := (hs.behind n).2 ⟨state, hbefore⟩
  -- The solver and the summary carry out the same accesses from the same state.
  have hwalk := hs.walked n state out hbefore hout
  have hfinal := (Policy.judged_of_judgeAll hsummary).1
  obtain rfl := Except.ok.inj (hwalk.symm.trans hfinal)
  exact ⟨(Solution.Recorded.turns hturns).has n state hbefore, hout⟩

end Solver

/-- **Summaries agree with states.**  Accesses that can be carried out from a state can be judged
from it: the summary gives each of them, in order, the verdict in the state that the accesses in
front of it leave, its counts add up, and it ends with the state behind the last access.  After
a successful run a solver judges just the nodes of the run, at once or later, each from the state
in front of it, and the summary of a node ends with the state behind the node. -/
theorem Policy.summaries_agree (p : Policy) (t : Journal) :
    (∀ s addresses out, (p.walk s addresses t).result = .ok out →
      ∃ summary, (p.judgeAll s addresses t).result = .ok summary ∧
        p.Judged t s addresses out summary) ∧
    ∀ g entry a a' table, Solver.make g entry = .ok a →
      (a.run p g t).result = .ok (a', .ok table) →
      (a'.run p g t).result = .ok (a', .ok table) ∧
      ∃ summaries, (a'.verdicts p g t).result = .ok (a', .ok summaries) ∧
        (a.verdicts p g t).result = .ok (a', .ok summaries) ∧
        summaries.map Prod.fst = table.map Prod.fst ∧
        ∀ n summary, (n, summary) ∈ summaries →
          (∃ state, (n, state) ∈ table ∧
            (p.judgeAll state (g.accessesOf n) t).result = .ok summary) ∧
          (a'.stateAfter p g n t).result = .ok (a', .ok (some summary.final)) := by
  refine ⟨fun s addresses out h => exists_judged_of_walk h, ?_⟩
  intro g entry a a' table hmake hrun
  obtain ⟨s, hturns, rfl, rfl⟩ := Solver.turns_of_run hmake hrun
  obtain ⟨-, summaries, hjudge⟩ := Solver.judged_of_turns hturns
  obtain ⟨hnodes, hsummaries⟩ := Solver.nodes_of_judgeNodes hjudge
  have hagain := Solver.run_of_finished p g t entry s
  refine ⟨hagain, summaries, ?_, ?_, hnodes, fun n summary hmem =>
    ⟨hsummaries n summary hmem, ?_⟩⟩
  · rw [Solver.verdicts_of_run hagain, hjudge]
  · rw [Solver.verdicts_of_run hrun, hjudge]
  · obtain ⟨hn, hafter⟩ := Solver.final_of_turns hturns hjudge hmem
    rw [Solver.stateAfter, Solver.ask_of_finished hn, hafter]

theorem Policy.summaries_agree_tangled : ∃ a a' table summaries summary,
    Solver.make .tangled (.number 0) = .ok a ∧
    (a.run (.scratchpad .mixedSizes) .tangled none).result = .ok (a', .ok table) ∧
    (a'.verdicts (.scratchpad .mixedSizes) .tangled none).result = .ok (a', .ok summaries) ∧
    summaries.map Prod.fst = [.number 0, .number 2, .number 1, .number 3] ∧
    (.number 2, summary) ∈ summaries ∧
    summary.accesses = [(3, .alwaysMiss), (1, .alwaysHit)] ∧
    (a'.stateAfter (.scratchpad .mixedSizes) .tangled (.number 2) none).result =
      .ok (a', .ok (some summary.final)) := by
  refine ⟨_, _, _, _, _, rfl, by cbv, by cbv, rfl, .tail _ (.head _), rfl, ?_⟩
  obtain ⟨-, hsolver⟩ := summaries_agree (.scratchpad .mixedSizes) none
  obtain ⟨-, summaries, hverdicts, -, -, hfinal⟩ :=
    hsolver .tangled (.number 0) _ _ _ rfl (by cbv)
  refine (hfinal (.number 2) _ ?_).2
  obtain ⟨-, hsummaries⟩ := Prod.mk.inj (Except.ok.inj (hverdicts.symm.trans (by cbv)))
  rw [Except.ok.inj hsummaries]
  exact .tail _ (.head _)

end Residency
