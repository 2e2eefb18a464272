/-
Residency/Proofs/FailedRuns.lean

What a failed run leaves behind.  The state in front of the entry is the first thing that a
run finds, and whatever happens later it stays (`Solution.Begun`).  The next run takes up the
entry again, finds its state and has nothing left to do.  So it does not fail where the first
one did: it finishes, with the states that the failed run left, and from then on these are
the answer (`Solver.run_after_failure`).
-/
import Mathlib
import Residency.Flow.Path
import Residency.Proofs.ScratchpadAges
import Residency.Proofs.Turns
import Residency.Proofs.Wording

namespace Residency

variable {p : Policy} {g : Graph} {entry : NodeId} {t : Journal}

/-! ### The entry comes first and stays -/

/-- The first state that was found is that in front of the entry. -/
def Solution.Begun (p : Policy) (entry : NodeId) (s : Solution) : Prop :=
  s.before.head? = some (entry, State.blank p.capacity)

namespace Solution

variable {s : Solution}

theorem Begun.enter (hs : s.Begun p entry) (id : NodeId) (state : State) :
    (s.enter id state).Begun p entry := by
  obtain ⟨before, after⟩ := s
  cases before with
  | nil => cases hs
  | cons => exact hs

theorem Begun.leave (hs : s.Begun p entry) (id : NodeId) (state : State) :
    (s.leave id state).Begun p entry := hs

theorem Begun.entered (hs : s.Begun p entry) : s.entered entry = true := by
  rw [Solution.entered, List.any_eq_true]
  exact ⟨_, List.mem_of_mem_head? hs, beq_self_eq_true entry⟩

/-- The state in front of the entry is blank and is found at once. -/
theorem begun_of_startState? {start : Analysis State} {state : State}
    (hstart : startState? p g entry Solution.empty entry = some start)
    (hstate : (start t).result = .ok state) : (Solution.empty.enter entry state).Begun p entry := by
  rw [startState?_entry] at hstart
  obtain rfl := Option.some.inj hstart
  obtain rfl := Except.ok.inj hstate
  rfl

end Solution

/-- A turn keeps the entry first, with its blank state. -/
theorem Turn.begun {c c' : Stage} (h : Turn p g entry t c c') (hc : c.2.Begun p entry) :
    c'.2.Begun p entry := by
  cases h with
  | known => exact hc
  | postponed => exact hc
  | settled => exact (hc.enter _ _).leave _ _

/-- However the loop halts, the entry stays first. -/
theorem Halts.begun {c : Stage} {s : Solution} {r : Except Fault Unit}
    (h : Halts p g entry t c (s, r)) (hc : c.2.Begun p entry) : s.Begun p entry := by
  cases h with
  | done => exact hc
  | unknown => exact hc
  | start => exact hc
  | walk => exact hc.enter _ _
  | report => exact (hc.enter _ _).leave _ _

/-- So do all turns of a run. -/
theorem begun_of_turns {c c' : Stage} (h : Relation.ReflTransGen (Turn p g entry t) c c')
    (hc : c.2.Begun p entry) : c'.2.Begun p entry := by
  induction h with
  | refl => exact hc
  | tail _ hturn ih => exact hturn.begun ih

/-- The first turn settles the entry. -/
theorem Turn.begun_first {c : Stage} (h : Turn p g entry t ([entry], Solution.empty) c) :
    c.2.Begun p entry := by
  cases h with
  | known hs => cases hs
  | postponed _ _ hstart =>
    rw [startState?_entry] at hstart
    cases hstart
  | settled _ _ hstart hstate => exact (Solution.begun_of_startState? hstart hstate).leave _ _

theorem Halts.begun_first {s : Solution} {r : Except Fault Unit} (hg : g.has entry = true)
    (h : Halts p g entry t ([entry], Solution.empty) (s, r)) : s.Begun p entry := by
  cases h with
  | unknown _ hid =>
    rw [hg] at hid
    cases hid
  | start _ _ hstart he =>
    rw [startState?_entry] at hstart
    obtain rfl := Option.some.inj hstart
    cases he
  | walk _ _ hstart hstate => exact Solution.begun_of_startState? hstart hstate
  | report _ _ hstart hstate => exact (Solution.begun_of_startState? hstart hstate).leave _ _

/-- The loop halts at a node only if the node has no state. -/
theorem Halts.not_entered {id : NodeId} {rest : List NodeId} {s : Solution}
    {r : Solution × Except Fault Unit} (h : Halts p g entry t (id :: rest, s) r) :
    s.entered id = false := by
  cases h <;> assumption

namespace Solver

/-- However the first run of a solver ends, it has begun. -/
theorem Ends.begun {r : Solver × Except Fault StateTable} (hg : g.has entry = true)
    (h : Ends p g t ⟨entry, Solution.empty, false⟩ r) : r.1.solution.Begun p entry := by
  cases h with
  | failed hturns hhalts =>
    rcases hturns.cases_head with rfl | ⟨c, hturn, hturns⟩
    · exact hhalts.begun_first hg
    · exact hhalts.begun (begun_of_turns hturns hturn.begun_first)
  | unreported hturns =>
    -- The stack was not empty at first, so there has been a turn.
    rcases hturns.cases_head with heq | ⟨c, hturn, hturns⟩
    · cases heq
    · exact begun_of_turns hturns hturn.begun_first
  | finished hturns =>
    rcases hturns.cases_head with heq | ⟨c, hturn, hturns⟩
    · cases heq
    · exact begun_of_turns hturns hturn.begun_first

/-! ### The next run -/

/-- A loop that takes up a node with a state drops it and is at the end. -/
theorem eq_of_turns_of_entered {s : Solution} {c : Stage} (hs : s.entered entry = true)
    (h : Relation.ReflTransGen (Turn p g entry t) ([entry], s) c) :
    c = ([entry], s) ∨ c = ([], s) := by
  induction h with
  | refl => exact .inl rfl
  | tail _ hturn ih =>
    rcases ih with rfl | rfl
    · cases hturn with
      | known => exact .inr rfl
      | postponed hnot =>
        rw [hnot] at hs
        cases hs
      | settled hnot =>
        rw [hnot] at hs
        cases hs
    · cases hturn

/-- Nodes without state are reported without a fault. -/
theorem reportSkipped_journal (g : Graph) (entry : NodeId) (s : Solution) (t : Threshold) :
    (reportSkipped g entry s t).result = .ok () := by
  rw [reportSkipped]
  split
  · rfl
  · exact Analysis.result_note_journal _ _ _ t

/-- A run that finds the state of the entry has nothing to do but to report. -/
theorem run_of_entered {s : Solution} (hs : s.entered entry = true) (p : Policy) (g : Graph)
    (t : Threshold) :
    (run p g ⟨entry, s, false⟩ t).result = .ok (⟨entry, s, true⟩, .ok s.before) := by
  obtain ⟨r, hends, hrun⟩ := exists_ends p g t (a := ⟨entry, s, false⟩) rfl
  rw [hrun]
  cases hends with
  | failed hturns hhalts =>
    rcases eq_of_turns_of_entered hs hturns with rfl | rfl
    · rw [hhalts.not_entered] at hs
      cases hs
    · cases hhalts
  | unreported hturns he =>
    rw [reportSkipped_journal] at he
    cases he
  | finished hturns hreport =>
    rcases eq_of_turns_of_entered hs hturns with heq | heq
    · cases heq
    · obtain ⟨-, rfl⟩ := Prod.mk.inj heq
      rfl

/-! ### Asking a solver that fails -/

/-- A question about a node fails as the run that it needs does. -/
theorem ask_of_failed {a a' : Solver} {e : Fault} {n : NodeId} (hn : g.has n = true)
    (h : (a.run p g t).result = .ok (a', .error e)) (f : Solution → Option State) :
    (a.ask p g n f t).result = .ok (a', .error e) := by
  rw [ask, Graph.requireNode, if_pos hn]
  exact Analysis.result_bind_eq_ok.2 ⟨_, h, rfl⟩

/-- Where a run fails there are no verdicts. -/
theorem verdicts_of_failed {a a' : Solver} {e : Fault}
    (h : (a.run p g t).result = .ok (a', .error e)) :
    (a.verdicts p g t).result = .ok (a', .error e) :=
  Analysis.result_bind_eq_ok.2 ⟨_, h, rfl⟩

/-- **A failed run turns into a result.**  The fault of a first run is also what asking for
states or verdicts ends with, and all of them leave the same solver.  In it the blank state in
front of the entry is kept, and for that reason the next run, however the first one was
started and whatever is kept in the journal, finishes with the states that were left behind. -/
theorem run_after_failure (p : Policy) (g : Graph) (entry : NodeId) (a a' : Solver)
    (hmake : make g entry = .ok a) (t : Journal) (e : Fault)
    (hrun : (a.run p g t).result = .ok (a', .error e)) :
    ((a.verdicts p g t).result = .ok (a', .error e) ∧
      ∀ n, g.has n = true → (a.stateBefore p g n t).result = .ok (a', .error e) ∧
        (a.stateAfter p g n t).result = .ok (a', .error e)) ∧
    a'.solution.before.head? = some (entry, State.blank p.capacity) ∧
    ∀ t' : Threshold, (a'.run p g t').result =
      .ok (⟨entry, a'.solution, true⟩, .ok a'.solution.before) := by
  have hg := has_of_make hmake
  refine ⟨⟨verdicts_of_failed hrun, fun n hn => ⟨ask_of_failed hn hrun _,
    ask_of_failed hn hrun _⟩⟩, ?_⟩
  obtain rfl := eq_of_make hmake
  obtain ⟨r, hends, hr⟩ := exists_ends p g t (a := ⟨entry, Solution.empty, false⟩) rfl
  obtain rfl := Except.ok.inj (hr.symm.trans hrun)
  have hbegun := hends.begun hg
  have ha' : a' = ⟨entry, a'.solution, false⟩ := by
    cases hends with
    | failed => rfl
    | unreported => rfl
  refine ⟨hbegun, fun t' => ?_⟩
  rw [ha']
  exact run_of_entered hbegun.entered p g t'

end Solver

/-- A line of nodes of which the second calls a function that no table has. -/
def Graph.strayCall : Graph where
  nodes := [⟨.number 0, [1]⟩, ⟨.number 1, [9]⟩, ⟨.number 2, [2]⟩]
  edges := [⟨.number 0, .number 1, .forward⟩, ⟨.number 1, .number 2, .forward⟩]

-- The answer of the second run lacks the last node, which could be settled.
theorem Solver.run_after_stray_call : ∃ a a' table,
    Solver.make .strayCall (.number 0) = .ok a ∧
    (a.run (.scratchpad .mixedSizes) .strayCall none).result =
      .ok (a', .error (.unknownFunction 9)) ∧
    (a'.run (.scratchpad .mixedSizes) .strayCall none).result =
      .ok (⟨.number 0, a'.solution, true⟩, .ok table) ∧
    table.map Prod.fst = [.number 0, .number 1] ∧
    Graph.strayCall.Settled (.number 0) (.number 2) := by
  have hrun : (Solver.run (.scratchpad .mixedSizes) .strayCall
      ⟨.number 0, Solution.empty, false⟩ none).result =
        .ok (⟨.number 0, ⟨[(.number 0, ⟨[], [], 32⟩), (.number 1, ⟨[⟨1, 0⟩], [⟨1, 0⟩], 32⟩)],
          [(.number 0, ⟨[⟨1, 0⟩], [⟨1, 0⟩], 32⟩)]⟩, false⟩, .error (.unknownFunction 9)) := by
    cbv
  obtain ⟨-, -, hnext⟩ := run_after_failure _ _ (.number 0) _ _ rfl none _ hrun
  refine ⟨_, _, _, rfl, hrun, hnext none, rfl, ?_⟩
  have hone : Graph.strayCall.Settled (.number 0) (.number 1) := by
    refine .node ⟨.number 0, by simp [Graph.Forward, Graph.strayCall]⟩ fun m hm => ?_
    obtain rfl : m = .number 0 := by simpa [Graph.Forward, Graph.strayCall] using hm
    exact .entry
  refine .node ⟨.number 1, by simp [Graph.Forward, Graph.strayCall]⟩ fun m hm => ?_
  obtain rfl : m = .number 1 := by simpa [Graph.Forward, Graph.strayCall] using hm
  exact hone

end Residency
