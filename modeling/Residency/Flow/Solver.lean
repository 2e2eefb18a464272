/-
Residency/Flow/Solver.lean

The solver: the abstract state in front of every node of a flow graph.  The entry starts
blank; another node starts when the states behind all its forward predecessors are known,
from the one state if there is one predecessor and from the join otherwise; the state
behind a node is the state in front of it after the node's accesses.

The nodes to look at form a stack.  A node that cannot start yet is dropped; the last of
its predecessors puts it on the stack again.  A run ends because each step either settles a
node of the graph or shortens the stack.

A solver keeps what it has found.  A run that fails leaves the states found so far, with
the state in front of the failing node, and the next run does not take up these nodes
again.
-/
import Residency.Flow.Graph
import Residency.Verdict

namespace Residency

open Text (decimal)

/-- States by node, in the order in which they were found. -/
abbrev StateTable := List (NodeId × State)

/-- What is known of the states in front of and behind the nodes. -/
structure Solution where
  before : StateTable
  after : StateTable
deriving DecidableEq, Repr

namespace Solution

/-- Nothing is known. -/
def empty : Solution :=
  ⟨[], []⟩

/-- The state in front of a node. -/
def before? (s : Solution) (id : NodeId) : Option State :=
  s.before.lookup id

/-- The state behind a node. -/
def after? (s : Solution) (id : NodeId) : Option State :=
  s.after.lookup id

/-- Is the state in front of the node known? -/
def entered (s : Solution) (id : NodeId) : Bool :=
  s.before.any fun p => p.1 == id

/-- The solution with the state in front of a node. -/
def enter (s : Solution) (id : NodeId) (state : State) : Solution :=
  { s with before := s.before ++ [(id, state)] }

/-- The solution with the state behind a node. -/
def leave (s : Solution) (id : NodeId) (state : State) : Solution :=
  { s with after := s.after ++ [(id, state)] }

/-- The number of nodes whose states are not known. -/
def pending (s : Solution) (g : Graph) : Nat :=
  (g.nodes.filter fun n => !s.entered n.id).length

end Solution

/-! ### One run -/

/-- The state in front of a node, if its predecessors are done. -/
def startState? (p : Policy) (g : Graph) (entry : NodeId) (s : Solution) (id : NodeId) :
    Option (Analysis State) :=
  if id = entry then some p.initial
  else match (g.sourcesOf id (some .forward)).mapM s.after? with
    | none => none
    | some [state] => some (pure state)
    | some states => some (p.join states)

/-- The entry starts blank, whatever has been found. -/
@[simp] theorem startState?_entry (p : Policy) (g : Graph) (entry : NodeId) (s : Solution) :
    startState? p g entry s entry = some p.initial :=
  if_pos rfl

/-- Reports the state in front of a node. -/
def reportStart (p : Policy) (id : NodeId) (state : State) : Analysis Unit :=
  Analysis.inDetail do
    Analysis.note .debug .solver ("Initial memory state of node " ++ id.text)
    let must ← p.setText state.must
    Analysis.note .debug .solver ("Must set: " ++ must)
    let may ← p.setText state.may
    Analysis.note .debug .solver ("May set: " ++ may)

/-- Settling a node leaves fewer nodes to settle. -/
theorem pending_leave_enter_lt {g : Graph} {s : Solution} {id : NodeId} (hg : g.has id = true)
    (hs : s.entered id = false) (state out : State) :
    ((s.enter id state).leave id out).pending g < s.pending g := by
  have hent : ∀ x, ((s.enter id state).leave id out).entered x = (s.entered x || id == x) := by
    intro x; simp [Solution.entered, Solution.enter, Solution.leave]
  unfold Solution.pending
  have hsub : g.nodes.filter (fun n => !((s.enter id state).leave id out).entered n.id) =
      (g.nodes.filter fun n => !s.entered n.id).filter fun n => !(id == n.id) := by
    rw [List.filter_filter]
    refine List.filter_congr fun n _ => ?_
    rw [hent]; cases s.entered n.id <;> simp
  rw [hsub]
  simp only [Graph.has, List.any_eq_true, beq_iff_eq] at hg
  obtain ⟨n, hn, rfl⟩ := hg
  refine List.length_filter_lt_length_iff_exists.2 ⟨n, ?_, by simp⟩
  rw [List.mem_filter]
  exact ⟨hn, by simp [hs]⟩

/-- Works off a stack of nodes.  The solution is returned also when the run fails. -/
def solve (p : Policy) (g : Graph) (entry : NodeId) (stack : List NodeId) (s : Solution) :
    Analysis (Solution × Except Fault Unit) :=
  match stack with
  | [] => pure (s, .ok ())
  | id :: rest =>
    if _ : s.entered id = true then solve p g entry rest s
    else if _ : g.has id = false then pure (s, refuse (.unknownNode id))
    else match startState? p g entry s id with
      | none => solve p g entry rest s
      | some start => do
        match ← start.attempt with
        | .error e => return (s, .error e)
        | .ok state =>
          match ← (p.walk state (g.accessesOf id)).attempt with
          | .error e => return (s.enter id state, .error e)
          | .ok out =>
            let settled := (s.enter id state).leave id out
            match ← (reportStart p id state).attempt with
            | .error e => return (settled, .error e)
            | .ok () =>
              solve p g entry ((g.targetsOf id (some .forward)).reverse ++ rest) settled
termination_by (s.pending g, stack.length)
decreasing_by
  · exact Prod.Lex.right _ (by simp)
  · exact Prod.Lex.right _ (by simp)
  · exact Prod.Lex.left _ _ (pending_leave_enter_lt (by simpa using ‹¬g.has id = false›)
      (by simpa using ‹¬s.entered id = true›) state out)

/-! ### The solver -/

/-- An analysis of a graph from an entry node. -/
structure Solver where
  entry : NodeId
  solution : Solution
  finished : Bool
deriving DecidableEq, Repr

namespace Solver

/-- A solver that has not run; the entry must be in the graph. -/
def make (g : Graph) (entry : NodeId) : Except Fault Solver :=
  if g.has entry then .ok ⟨entry, Solution.empty, false⟩ else refuse (.missingEntry entry)

/-- Reports how many nodes have no state, if there are any. -/
def reportSkipped (g : Graph) (entry : NodeId) (s : Solution) : Analysis Unit :=
  let skipped : Int := g.size - s.before.length
  if skipped = 0 then pure ()
  else Analysis.note .info .solver (decimal skipped ++ " node(s) unreachable from " ++
    entry.text ++ ", left without state")

/-- Runs the solver, if it has not finished.  The solver is returned also when the run fails. -/
def run (p : Policy) (g : Graph) (a : Solver) : Analysis (Solver × Except Fault StateTable) := do
  if a.finished then return (a, .ok a.solution.before)
  else
    let (s, ended) ← solve p g a.entry [a.entry] a.solution
    match ended with
    | .error e => return ({ a with solution := s }, .error e)
    | .ok () =>
      match ← (reportSkipped g a.entry s).attempt with
      | .error e => return ({ a with solution := s }, .error e)
      | .ok () => return (⟨a.entry, s, true⟩, .ok s.before)

/-- Runs the solver and asks for something about a node of the graph. -/
def ask (p : Policy) (g : Graph) (a : Solver) (id : NodeId) (f : Solution → Option State) :
    Analysis (Solver × Except Fault (Option State)) := do
  match g.requireNode id with
  | .error e => return (a, .error e)
  | .ok () =>
    let (a, ended) ← a.run p g
    return (a, ended.map fun _ => f a.solution)

/-- The state in front of a node. -/
def stateBefore (p : Policy) (g : Graph) (a : Solver) (id : NodeId) :
    Analysis (Solver × Except Fault (Option State)) :=
  a.ask p g id fun s => s.before? id

/-- The state behind a node. -/
def stateAfter (p : Policy) (g : Graph) (a : Solver) (id : NodeId) :
    Analysis (Solver × Except Fault (Option State)) :=
  a.ask p g id fun s => s.after? id

/-- The verdicts on the accesses of a node that starts in the given state. -/
def judgeNode (p : Policy) (g : Graph) (c : NodeId × State) :
    Analysis (Option (NodeId × Summary)) := do
  let accesses ← Analysis.ofExcept (g.accesses c.1)
  let summary ← p.judgeAll c.2 accesses
  return some (c.1, summary)

/-- The verdicts on the accesses of the nodes in a table. -/
def judgeNodes (p : Policy) (g : Graph) (table : StateTable) :
    Analysis (List (NodeId × Summary)) :=
  Analysis.collect (judgeNode p g) table

/-- The verdicts on the accesses of all nodes that have a state. -/
def verdicts (p : Policy) (g : Graph) (a : Solver) :
    Analysis (Solver × Except Fault (List (NodeId × Summary))) := do
  let (a, ended) ← a.run p g
  match ended with
  | .error e => return (a, .error e)
  | .ok table =>
    let summaries ← (judgeNodes p g table).attempt
    return (a, summaries)

end Solver

end Residency
