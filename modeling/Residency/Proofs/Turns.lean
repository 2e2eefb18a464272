/-
Residency/Proofs/Turns.lean

The solver's loop, turn by turn.  A stage is a stack and the solution so far.  `Turn` says
what one turn of the loop does to a stage when it meets no fault, and `Halts` where the loop
stops and with what.  `turn_or_halts` says that there is nothing else, `Turn.result_solve` and
`Halts.result_solve` that the solver returns just what comes of this, and after them nothing
looks into the loop any more.

A stage has a measure that every turn lowers by exactly one: the nodes on the stack together
with the forward edges that can still put a node there, because their sources have no state
yet (`Turn.measure`).  A run from the entry therefore takes at most one turn more than the
graph has forward edges, whatever cycles these form (`length_le_of_turns`), and it comes to
a halt (`exists_halt`).
-/
import Mathlib.Logic.Relation
import Residency.Flow.Solver
import Residency.Proofs.Results

namespace Residency

variable {p : Policy} {g : Graph} {entry : NodeId} {t : Journal}

/-- The stack of the solver and what it has found. -/
abbrev Stage := List NodeId × Solution

/-! ### Turns and halts -/

/-- One turn of the loop without a fault. -/
inductive Turn (p : Policy) (g : Graph) (entry : NodeId) (t : Journal) : Stage → Stage → Prop
  /-- The node has its state already. -/
  | known {id : NodeId} {rest : List NodeId} {s : Solution} (hs : s.entered id = true) :
      Turn p g entry t (id :: rest, s) (rest, s)
  /-- The node waits for a predecessor. -/
  | postponed {id : NodeId} {rest : List NodeId} {s : Solution} (hs : s.entered id = false)
      (hid : g.has id = true) (hstart : startState? p g entry s id = none) :
      Turn p g entry t (id :: rest, s) (rest, s)
  /-- The node gets its states, and its successors go on the stack. -/
  | settled {id : NodeId} {rest : List NodeId} {s : Solution} {start : Analysis State}
      {state out : State} (hs : s.entered id = false) (hid : g.has id = true)
      (hstart : startState? p g entry s id = some start) (hstate : (start t).result = .ok state)
      (hout : (p.walk state (g.accessesOf id) t).result = .ok out)
      (hreport : (reportStart p id state t).result = .ok ()) :
      Turn p g entry t (id :: rest, s)
        ((g.targetsOf id (some .forward)).reverse ++ rest, (s.enter id state).leave id out)

/-- The loop stops at the stage, with the solution and the fault that it leaves. -/
inductive Halts (p : Policy) (g : Graph) (entry : NodeId) (t : Journal) :
    Stage → Solution × Except Fault Unit → Prop
  /-- The stack is worked off. -/
  | done {s : Solution} : Halts p g entry t ([], s) (s, .ok ())
  /-- The node is not in the graph. -/
  | unknown {id : NodeId} {rest : List NodeId} {s : Solution} (hs : s.entered id = false)
      (hid : g.has id = false) :
      Halts p g entry t (id :: rest, s) (s, .error (Fault.unknownNode id).stated)
  /-- The states behind the predecessors cannot be joined. -/
  | start {id : NodeId} {rest : List NodeId} {s : Solution} {start : Analysis State} {e : Fault}
      (hs : s.entered id = false) (hid : g.has id = true)
      (hstart : startState? p g entry s id = some start) (he : (start t).result = .error e) :
      Halts p g entry t (id :: rest, s) (s, .error e)
  /-- An access of the node fails, and the state in front of the node stays behind. -/
  | walk {id : NodeId} {rest : List NodeId} {s : Solution} {start : Analysis State}
      {state : State} {e : Fault} (hs : s.entered id = false) (hid : g.has id = true)
      (hstart : startState? p g entry s id = some start) (hstate : (start t).result = .ok state)
      (he : (p.walk state (g.accessesOf id) t).result = .error e) :
      Halts p g entry t (id :: rest, s) (s.enter id state, .error e)
  /-- The state in front of the node cannot be reported. -/
  | report {id : NodeId} {rest : List NodeId} {s : Solution} {start : Analysis State}
      {state out : State} {e : Fault} (hs : s.entered id = false) (hid : g.has id = true)
      (hstart : startState? p g entry s id = some start) (hstate : (start t).result = .ok state)
      (hout : (p.walk state (g.accessesOf id) t).result = .ok out)
      (he : (reportStart p id state t).result = .error e) :
      Halts p g entry t (id :: rest, s) ((s.enter id state).leave id out, .error e)

/-- At every stage the loop takes a turn or halts. -/
theorem turn_or_halts (p : Policy) (g : Graph) (entry : NodeId) (t : Journal) (c : Stage) :
    (∃ c', Turn p g entry t c c' ∧
      (solve p g entry c.1 c.2 t).result = (solve p g entry c'.1 c'.2 t).result) ∨
    ∃ r, Halts p g entry t c r ∧ (solve p g entry c.1 c.2 t).result = .ok r := by
  obtain ⟨stack, s⟩ := c
  match stack with
  | [] =>
    refine .inr ⟨_, .done, ?_⟩
    rw [solve]
    rfl
  | id :: rest =>
    rw [solve]
    by_cases hs : s.entered id = true
    · rw [dif_pos hs]
      exact .inl ⟨_, .known hs, rfl⟩
    rw [dif_neg hs]
    have hs' : s.entered id = false := Bool.eq_false_iff.2 hs
    by_cases hid : g.has id = false
    · rw [dif_pos hid]
      exact .inr ⟨_, .unknown hs' hid, rfl⟩
    rw [dif_neg hid]
    have hid' : g.has id = true := by simpa using hid
    cases hstart : startState? p g entry s id with
    | none => exact .inl ⟨_, .postponed hs' hid' hstart, rfl⟩
    | some start =>
      -- Three attempts follow; the loop goes on only if each of them succeeds.
      dsimp only
      rw [Analysis.result_attempt_bind]
      cases hstate : (start t).result with
      | error e => exact .inr ⟨_, .start hs' hid' hstart hstate, rfl⟩
      | ok state =>
        dsimp only
        rw [Analysis.result_attempt_bind]
        cases hout : (p.walk state (g.accessesOf id) t).result with
        | error e => exact .inr ⟨_, .walk hs' hid' hstart hstate hout, rfl⟩
        | ok out =>
          dsimp only
          rw [Analysis.result_attempt_bind]
          cases hreport : (reportStart p id state t).result with
          | error e => exact .inr ⟨_, .report hs' hid' hstart hstate hout hreport, rfl⟩
          | ok => exact .inl ⟨_, .settled hs' hid' hstart hstate hout hreport, rfl⟩

/-- What comes of a stage comes of the stage before it. -/
theorem Turn.result_solve {c c' : Stage} (h : Turn p g entry t c c') :
    (solve p g entry c.1 c.2 t).result = (solve p g entry c'.1 c'.2 t).result := by
  cases h with
  | known hs => rw [solve, dif_pos hs]
  | postponed hs hid hstart => rw [solve, dif_neg (by simp [hs]), dif_neg (by simp [hid]), hstart]
  | settled hs hid hstart hstate hout hreport =>
    rw [solve, dif_neg (by simp [hs]), dif_neg (by simp [hid]), hstart]
    dsimp only
    rw [Analysis.result_attempt_bind, hstate]
    dsimp only
    rw [Analysis.result_attempt_bind, hout]
    dsimp only
    rw [Analysis.result_attempt_bind, hreport]

/-- What comes of a stage comes of all stages before it. -/
theorem result_solve_of_turns {c c' : Stage}
    (h : Relation.ReflTransGen (Turn p g entry t) c c') :
    (solve p g entry c.1 c.2 t).result = (solve p g entry c'.1 c'.2 t).result := by
  induction h with
  | refl => rfl
  | tail _ hturn ih => exact ih.trans hturn.result_solve

/-- The solver returns what its loop halts with. -/
theorem Halts.result_solve {c : Stage} {r : Solution × Except Fault Unit}
    (h : Halts p g entry t c r) : (solve p g entry c.1 c.2 t).result = .ok r := by
  cases h with
  | done =>
    rw [solve]
    rfl
  | unknown hs hid =>
    rw [solve, dif_neg (by simp [hs]), dif_pos hid]
    rfl
  | start hs hid hstart he =>
    rw [solve, dif_neg (by simp [hs]), dif_neg (by simp [hid]), hstart]
    dsimp only
    rw [Analysis.result_attempt_bind, he]
    rfl
  | walk hs hid hstart hstate he =>
    rw [solve, dif_neg (by simp [hs]), dif_neg (by simp [hid]), hstart]
    dsimp only
    rw [Analysis.result_attempt_bind, hstate]
    dsimp only
    rw [Analysis.result_attempt_bind, he]
    rfl
  | report hs hid hstart hstate hout he =>
    rw [solve, dif_neg (by simp [hs]), dif_neg (by simp [hid]), hstart]
    dsimp only
    rw [Analysis.result_attempt_bind, hstate]
    dsimp only
    rw [Analysis.result_attempt_bind, hout]
    dsimp only
    rw [Analysis.result_attempt_bind, he]
    rfl

/-! ### The measure of a stage -/

/-- The number of forward edges. -/
def Graph.forwardCount (g : Graph) : Nat :=
  g.edges.countP fun e => e.isOf (some .forward)

namespace Solution

variable {s : Solution} {id : NodeId}

theorem entered_settled (s : Solution) (id : NodeId) (state out : State) (n : NodeId) :
    ((s.enter id state).leave id out).entered n = (s.entered n || id == n) := by
  simp [entered, enter, leave]

/-- The number of forward edges whose sources have no state yet. -/
def ahead (s : Solution) (g : Graph) : Nat :=
  g.edges.countP fun e => e.isOf (some .forward) && !s.entered e.source

theorem ahead_le (s : Solution) (g : Graph) : s.ahead g ≤ g.forwardCount := by
  refine List.countP_mono_left fun e _ he => ?_
  rw [Bool.and_eq_true] at he
  exact he.1

/-- The edges of a node are ahead until the node is settled. -/
theorem ahead_settled (g : Graph) (hs : s.entered id = false) (state out : State) :
    (g.targetsOf id (some .forward)).length + ((s.enter id state).leave id out).ahead g =
      s.ahead g := by
  rw [Graph.targetsOf, List.length_map, ← List.countP_eq_length_filter, ahead, ahead]
  simp only [entered_settled]
  induction g.edges with
  | nil => rfl
  | cons e edges ih =>
    rw [List.countP_cons, List.countP_cons, List.countP_cons, ← ih]
    by_cases he : e.source = id
    · subst he
      cases e.isOf (some .forward) <;> simp [hs]
      omega
    · have hne : (id == e.source) = false := beq_false_of_ne (Ne.symm he)
      rw [beq_false_of_ne he, hne]
      cases e.isOf (some .forward) <;> cases s.entered e.source <;> simp
      omega

end Solution

/-- What is on the stack, and what can still be put there. -/
def Stage.measure (g : Graph) (c : Stage) : Nat :=
  c.1.length + c.2.ahead g

/-- Every turn lowers the measure by one. -/
theorem Turn.measure {c c' : Stage} (h : Turn p g entry t c c') :
    c'.measure g + 1 = c.measure g := by
  cases h with
  | known hs =>
    simp only [Stage.measure, List.length_cons]
    omega
  | postponed hs hid hstart =>
    simp only [Stage.measure, List.length_cons]
    omega
  | @settled id rest s start state out hs hid hstart hstate hout hreport =>
    have hahead := Solution.ahead_settled g hs state out
    simp only [Stage.measure, List.length_append, List.length_reverse, List.length_cons]
    omega

/-- A run has no more turns than its first stage allows. -/
theorem length_le_of_turns {c : Stage} {cs : List Stage}
    (h : List.IsChain (Turn p g entry t) (c :: cs)) : cs.length ≤ c.measure g := by
  induction cs generalizing c with
  | nil => exact Nat.zero_le _
  | cons c' cs ih =>
    obtain ⟨hturn, hchain⟩ := List.isChain_cons_cons.1 h
    have hle := ih hchain
    have hmeasure := hturn.measure
    rw [List.length_cons]
    omega

/-- Every run comes to a halt, and the solver returns what it halts with. -/
theorem exists_halt (p : Policy) (g : Graph) (entry : NodeId) (t : Journal) (c : Stage) :
    ∃ c' r, Relation.ReflTransGen (Turn p g entry t) c c' ∧ Halts p g entry t c' r ∧
      (solve p g entry c.1 c.2 t).result = .ok r := by
  -- Induction on the measure, which each turn lowers.
  induction hm : c.measure g using Nat.strongRecOn generalizing c with
  | ind m ih =>
    rcases turn_or_halts p g entry t c with ⟨c', hturn, hsame⟩ | ⟨r, hhalts, hresult⟩
    · have hmeasure := hturn.measure
      obtain ⟨c'', r, hruns, hhalts, hresult⟩ := ih (c'.measure g) (by omega) c' rfl
      exact ⟨c'', r, .head hturn hruns, hhalts, hsame.trans hresult⟩
    · exact ⟨c, r, .refl, hhalts, hresult⟩

/-! ### Runs of a solver -/

namespace Solver

theorem eq_of_make {a : Solver} (h : make g entry = .ok a) :
    a = ⟨entry, Solution.empty, false⟩ := by
  rw [make] at h
  split at h
  · exact (Except.ok.inj h).symm
  · exact absurd h (refuse_ne_ok _ _)

theorem has_of_make {a : Solver} (h : make g entry = .ok a) : g.has entry = true := by
  rw [make] at h
  split at h
  · assumption
  · exact absurd h (refuse_ne_ok _ _)

/-- How a run of a solver that has not finished ends: the solver and the answer it leaves. -/
inductive Ends (p : Policy) (g : Graph) (t : Journal) (a : Solver) :
    Solver × Except Fault StateTable → Prop
  /-- The loop stops with a fault, and what it has found stays. -/
  | failed {c : Stage} {s : Solution} {e : Fault}
      (hturns : Relation.ReflTransGen (Turn p g a.entry t) ([a.entry], a.solution) c)
      (hhalts : Halts p g a.entry t c (s, .error e)) :
      Ends p g t a ({ a with solution := s }, .error e)
  /-- The stack is worked off, but the nodes without state cannot be reported. -/
  | unreported {s : Solution} {e : Fault}
      (hturns : Relation.ReflTransGen (Turn p g a.entry t) ([a.entry], a.solution) ([], s))
      (he : (reportSkipped g a.entry s t).result = .error e) :
      Ends p g t a ({ a with solution := s }, .error e)
  /-- The stack is worked off, and the solver is finished. -/
  | finished {s : Solution}
      (hturns : Relation.ReflTransGen (Turn p g a.entry t) ([a.entry], a.solution) ([], s))
      (hreport : (reportSkipped g a.entry s t).result = .ok ()) :
      Ends p g t a (⟨a.entry, s, true⟩, .ok s.before)

/-- A run returns what it ends with. -/
theorem Ends.result_run {a : Solver} {r : Solver × Except Fault StateTable}
    (h : a.Ends p g t r) (ha : a.finished = false) : (a.run p g t).result = .ok r := by
  simp only [run, ha, Bool.false_eq_true, if_false, Analysis.result_bind_eq_ok]
  cases h with
  | failed hturns hhalts =>
    refine ⟨_, (result_solve_of_turns hturns).trans hhalts.result_solve, ?_⟩
    rw [← ha]
    rfl
  | unreported hturns he =>
    refine ⟨_, (result_solve_of_turns hturns).trans Halts.done.result_solve, ?_⟩
    dsimp only
    rw [Analysis.result_attempt_bind, he, ha]
    rfl
  | finished hturns hreport =>
    refine ⟨_, (result_solve_of_turns hturns).trans Halts.done.result_solve, ?_⟩
    dsimp only
    rw [Analysis.result_attempt_bind, hreport]
    rfl

/-- Every run ends, with an answer or a fault, and leaves a solver. -/
theorem exists_ends (p : Policy) (g : Graph) (t : Journal) {a : Solver}
    (ha : a.finished = false) : ∃ r, a.Ends p g t r ∧ (a.run p g t).result = .ok r := by
  obtain ⟨c, ⟨s, outcome⟩, hturns, hhalts, -⟩ :=
    exists_halt p g a.entry t ([a.entry], a.solution)
  have hends : ∃ r, a.Ends p g t r := by
    cases outcome with
    | error e => exact ⟨_, .failed hturns hhalts⟩
    | ok =>
      cases hhalts with
      | done =>
        -- The loop is through, but the solver is not finished before the report is written.
        cases hreport : (reportSkipped g a.entry s t).result with
        | error e => exact ⟨_, .unreported hturns hreport⟩
        | ok => exact ⟨_, .finished hturns hreport⟩
  obtain ⟨r, hends⟩ := hends
  exact ⟨r, hends, hends.result_run ha⟩

/-- A new solver that runs with success has worked off its stack. -/
theorem turns_of_run {a a' : Solver} {table : StateTable} (hmake : make g entry = .ok a)
    (hrun : (a.run p g t).result = .ok (a', .ok table)) :
    ∃ s, Relation.ReflTransGen (Turn p g entry t) ([entry], Solution.empty) ([], s) ∧
      a' = ⟨entry, s, true⟩ ∧ table = s.before := by
  obtain rfl := eq_of_make hmake
  obtain ⟨r, hends, hr⟩ := exists_ends p g t (a := ⟨entry, Solution.empty, false⟩) rfl
  obtain rfl := Except.ok.inj (hr.symm.trans hrun)
  cases hends with
  | finished hturns => exact ⟨_, hturns, rfl, rfl⟩

end Solver

end Residency
