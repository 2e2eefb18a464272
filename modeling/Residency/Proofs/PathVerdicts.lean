/-
Residency/Proofs/PathVerdicts.lean

Verdicts hold on every path.  Whatever forward path leads from the entry to a node, an
access of the node that is judged to be always a hit finds its address in the memory, and
one that is judged to be always a miss does not (`Solver.verdicts_hold`).  The memory is
carried along the path from the start, access by access, so this joins the ages of a cache
or a scratchpad with the solver and with the second walk that judges the accesses.

The policies are those with least-recently-used replacement; a direct-mapped cache has a
stronger theorem of its own.
-/
import Residency.Proofs.Judging
import Residency.Proofs.LruCacheAges
import Residency.Proofs.ScratchpadAges

namespace Residency

/-- A memory with least-recently-used replacement that can hold something. -/
def Policy.IsLru : Policy → Prop
  | lruCache c => 1 ≤ c.lines
  | directMapped _ => False
  | scratchpad _ => True

/-- With least-recently-used replacement derived states are faithful to their histories. -/
theorem Policy.IsLru.tracks {p : Policy} (hp : p.IsLru) :
    ∃ size : Int → Int, ∀ t, p.Tracks t (State.Faithful p size) := by
  cases p with
  | lruCache c => exact ⟨_, LruCache.tracks_faithful hp⟩
  | directMapped c => exact hp.elim
  | scratchpad p => exact ⟨_, p.tracks_faithful⟩

/-- **Verdicts hold on every path.**  If a run succeeds, so does judging, before or after the
run, and each verdict is right about the memory that any forward path from the entry and
the accesses of the node in front of the access leave. -/
theorem Solver.verdicts_hold (p : Policy) (hp : p.IsLru) (g : Graph) (entry : NodeId)
    (hentry : ∀ m, ¬g.Forward m entry) (a a' : Solver) (hmake : Solver.make g entry = .ok a)
    (t : Journal) (table : StateTable)
    (hrun : (a.run p g t).result = .ok (a', .ok table)) :
    (∃ summaries, (a'.verdicts p g t).result = .ok (a', .ok summaries) ∧
      (a.verdicts p g t).result = .ok (a', .ok summaries)) ∧
    ∀ (t' : Journal) (b : Solver) (summaries : List (NodeId × Summary)),
      (a'.verdicts p g t').result = .ok (b, .ok summaries) →
      summaries.map Prod.fst = table.map Prod.fst ∧
      ∀ n summary, (n, summary) ∈ summaries →
        summary.accesses.map Prod.fst = g.accessesOf n ∧
        ∀ history ∈ g.pathHistories entry n,
          ∀ (i : Nat) x v, summary.accesses[i]? = some (x, v) →
            (v = .alwaysHit → x ∈ p.contents (history ++ (g.accessesOf n).take i)) ∧
            (v = .alwaysMiss → x ∉ p.contents (history ++ (g.accessesOf n).take i)) := by
  refine ⟨exists_verdicts hmake hentry hrun, fun t' b summaries hverdicts => ?_⟩
  obtain ⟨size, hR⟩ := hp.tracks
  obtain ⟨hnodes, hsummaries⟩ := verdicts_along_paths hR hmake hentry hrun hverdicts
  refine ⟨hnodes, fun n summary hmem => ?_⟩
  obtain ⟨hfst, hjudged⟩ := hsummaries n summary hmem
  refine ⟨hfst, fun history hh i x v hi => ?_⟩
  obtain ⟨s, rfl, hs⟩ := hjudged i x v hi
  have hcovers := hs.covers _ ⟨history, hh, rfl⟩
  constructor
  · intro hhit
    have hmust := hcovers.mem_of_must (State.verdict_eq_alwaysHit.1 hhit)
    rw [Contents.addresses_laidOut] at hmust
    exact hmust
  · intro hmiss hres
    refine (State.verdict_eq_alwaysMiss.1 hmiss).2 (hcovers.mem_may ?_)
    rw [Contents.addresses_laidOut]
    exact hres

theorem Solver.verdicts_hold_diamond : ∃ a a' table summaries final,
    Solver.make .diamond (.number 0) = .ok a ∧
    (a.run (.lruCache ⟨2⟩) .diamond none).result = .ok (a', .ok table) ∧
    (a'.verdicts (.lruCache ⟨2⟩) .diamond none).result = .ok (a', .ok summaries) ∧
    (.number 3, ⟨[(1, .alwaysHit), (2, .notClassified), (4, .alwaysMiss)], final⟩) ∈ summaries ∧
    [1, 2] ∈ Graph.diamond.pathHistories (.number 0) (.number 3) ∧
    ∀ history ∈ Graph.diamond.pathHistories (.number 0) (.number 3),
      1 ∈ (Policy.lruCache ⟨2⟩).contents history ∧
      4 ∉ (Policy.lruCache ⟨2⟩).contents (history ++ [1, 2]) := by
  refine ⟨_, _, _, _, _, rfl, by cbv, by cbv, .tail _ (.tail _ (.tail _ (.head _))),
    Graph.mem_pathHistories_diamond.1, fun history hh => ?_⟩
  have hlru : (Policy.lruCache ⟨2⟩).IsLru := show (1 : Int) ≤ 2 by decide
  have hall := (verdicts_hold (.lruCache ⟨2⟩) hlru .diamond (.number 0)
    Graph.not_forward_diamond _ _ rfl none _ (by cbv)).2 none _ _ (by cbv)
  obtain ⟨-, hjudged⟩ := hall.2 (.number 3) _ (.tail _ (.tail _ (.tail _ (.head _))))
  have hhit := (hjudged history hh 0 1 .alwaysHit rfl).1 rfl
  rw [List.take_zero, List.append_nil] at hhit
  exact ⟨hhit, (hjudged history hh 2 4 .alwaysMiss rfl).2 rfl⟩

end Residency
