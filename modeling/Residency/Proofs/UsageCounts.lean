/-
Residency/Proofs/UsageCounts.lean

What is counted.  A policy reports each state that it yields, once, and nothing for a request
that fails (`Analysis.Produces`); the records that go with it count nothing, and neither do the
states that a join of many goes through.  So all counters can be read off the list of the states
that were reported (`Usage.ofStates`), and the question is which states these are.

A sequence of accesses reports its trail, the states that it passes through up to an access that
fails (`Policy.trail`).  The loop of the solver reports the states of the nodes that it adds to
the table, however often it drops a node and takes it up again: the trail of the node, and the
state it starts from, if that is a new one (`reports_solve`).  Hence the counters after whatever
a client does, also where requests stop midway (`Action.reported`), and the number of states that
a run counts.
-/
import Mathlib
import Residency.Proofs.Reachability
import Residency.Proofs.Sessions
import Residency.Proofs.Summaries

namespace Residency

variable {t : Journal}

/-! ### Usage -/

namespace Usage

/-- Two sets for each state, and the bytes of a header for each state and of two words for each
address. -/
def Balanced (u : Usage) : Prop :=
  u.representations = 2 * u.states ∧ u.bytes = 56 * u.states + 8 * u.references

/-- The counters after the given states were reported: their number, twice their number, and the
sums of their bytes and of their sizes. -/
def ofStates (ss : List State) : Usage where
  states := ss.length
  representations := 2 * ss.length
  bytes := (ss.map State.bytes).sum
  references := ((ss.map State.size).sum : Nat)

@[simp] theorem states_ofStates (ss : List State) : (ofStates ss).states = ss.length := rfl

theorem ofStates_singleton (s : State) : ofStates [s] = s.usage := by
  ext <;> simp [ofStates, State.usage, oneState]

/-- What is reported one after the other is counted together. -/
theorem ofStates_append (ss us : List State) :
    ofStates (ss ++ us) = ofStates ss + ofStates us := by
  ext <;> simp [ofStates, Int.mul_add]

/-- Whatever the states are, the counters over them are in balance. -/
theorem balanced_ofStates (ss : List State) : (ofStates ss).Balanced := by
  refine ⟨rfl, ?_⟩
  induction ss with
  | nil => rfl
  | cons s ss ih =>
    simp only [ofStates, List.map_cons, List.sum_cons, List.length_cons, State.bytes] at ih ⊢
    rw [Nat.cast_add, Nat.cast_add]
    omega

end Usage

/-! ### Analyses -/

namespace Analysis

variable {α β : Type}

/-- The analysis counts nothing. -/
def Free (x : Analysis α) (t : Journal) : Prop :=
  (x t).usage = Usage.zero

/-- If both parts count nothing, neither does the whole. -/
theorem Free.bind {x : Analysis α} {f : α → Analysis β} (hx : x.Free t) (hf : ∀ a, (f a).Free t) :
    (x >>= f).Free t := by
  cases h : (x t).result with
  | error e =>
    rw [Free, bind_error h]
    exact hx
  | ok a =>
    rw [Free, bind_ok h, hx, Usage.zero_add]
    exact hf a

/-- To return something else counts nothing more. -/
theorem usage_bind_pure (x : Analysis α) (f : α → β) :
    ((x >>= fun a => pure (f a)) t).usage = (x t).usage := by
  cases h : (x t).result with
  | error e => rw [bind_error h]
  | ok a => rw [bind_ok h, usage_pure, Usage.add_zero]

theorem Free.bind_pure {x : Analysis α} (hx : x.Free t) (f : α → β) :
    (x >>= fun a => pure (f a)).Free t :=
  (usage_bind_pure x f).trans hx

/-- What counts nothing can go before. -/
theorem Free.usage_bind {x : Analysis α} (hx : x.Free t) {a : α} (h : (x t).result = .ok a)
    (f : α → Analysis β) : ((x >>= f) t).usage = (f a t).usage := by
  rw [bind_ok h, hx, Usage.zero_add]

theorem free_ofExcept (r : Except Fault α) : (ofExcept r).Free t := rfl

/-- Following a list counts nothing if its members count nothing. -/
theorem free_follow {f : β → α → Analysis β} (hf : ∀ b a, (f b a).Free t) (b : β) (as : List α) :
    (follow f b as).Free t := by
  induction as generalizing b with
  | nil => rfl
  | cons a as ih => exact (hf b a).bind ih

theorem free_collect {f : α → Analysis (Option β)} (hf : ∀ a, (f a).Free t) (as : List α) :
    (collect f as).Free t := by
  induction as with
  | nil => rfl
  | cons a as ih => exact (hf a).bind fun _ => ih.bind_pure _

/-- Where a member fails, those after it count nothing. -/
theorem usage_collect_of_error {f : α → Analysis (Option β)} {a : α} {e : Fault}
    (h : (f a t).result = .error e) (as : List α) :
    (collect f (a :: as) t).usage = (f a t).usage := by
  rw [collect, bind_error h]

/-- Otherwise they count on. -/
theorem usage_collect_of_ok {f : α → Analysis (Option β)} {a : α} {b : Option β}
    (h : (f a t).result = .ok b) (as : List α) :
    (collect f (a :: as) t).usage = (f a t).usage + (collect f as t).usage := by
  rw [collect, bind_ok h, usage_bind_pure]

/-! ### Reports -/

theorem free_write (m : Text.Phrase) : (write m).Free t := by
  rw [write]
  split
  · rfl
  · rfl

/-- A record counts nothing. -/
theorem free_note (l : Level) (c : Component) (m : Text.Phrase) : (note l c m).Free t :=
  usage_note l c m t

theorem free_inDetail {x : Analysis Unit} (hx : x.Free t) : (inDetail x).Free t := by
  rw [Free, inDetail]
  split
  · exact hx
  · rfl

theorem free_noteInDetail (c : Component) (message : String) (detail : Text.Phrase) :
    (noteInDetail c message detail).Free t :=
  free_inDetail ((free_write detail).bind fun _ => free_note _ _ _)

theorem free_forM {f : α → Analysis Unit} (hf : ∀ a, (f a).Free t) (as : List α) :
    Free (as.forM f) t := by
  induction as with
  | nil => rfl
  | cons a as ih =>
    show Free (f a >>= fun _ => as.forM f) t
    exact (hf a).bind fun _ => ih

/-! ### States that are yielded -/

/-- The state that is yielded is reported, once, and if there is none nothing is. -/
def Produces (x : Analysis State) (t : Journal) : Prop :=
  (x t).usage = Usage.ofStates (x t).result.toOption.toList

/-- To count a state and return it is to report it. -/
theorem produces_count (s : State) : Produces (count s.usage >>= fun _ => pure s) t :=
  (Usage.add_zero s.usage).trans (Usage.ofStates_singleton s).symm

theorem produces_fail (e : Fault) : Produces (fail e) t := rfl

/-- A state is reported whatever goes before it, if that counts nothing. -/
theorem Free.produces {x : Analysis α} {f : α → Analysis State} (hx : x.Free t)
    (hf : ∀ a, (f a).Produces t) : (x >>= f).Produces t := by
  rw [Produces]
  cases h : (x t).result with
  | error e =>
    rw [bind_error h]
    exact hx
  | ok a =>
    rw [hx.usage_bind h, bind_ok h]
    exact hf a

/-- An attempt counts what it tries, and what follows goes on from the result. -/
theorem attempt_bind_apply (x : Analysis α) (f : Except Fault α → Analysis β) :
    (x.attempt >>= f) t = ⟨(f (x t).result t).result, (x t).log ++ (f (x t).result t).log,
      (x t).usage + (f (x t).result t).usage⟩ := rfl

end Analysis

/-! ### Policies -/

open Analysis (free_note free_inDetail free_noteInDetail)

theorem DirectMapped.free_reportAccess (c : DirectMapped) (s : EntrySet) (a : Int) :
    (c.reportAccess s a).Free t := by
  rw [reportAccess]
  split
  · rfl
  · exact free_note _ _ _

theorem LruCache.free_reportAccess (c : LruCache) (kind : SetKind) (s : EntrySet) (a : Int) :
    (c.reportAccess kind s a).Free t :=
  (Analysis.free_forM (fun _ => free_note _ _ _) _).bind fun _ => free_noteInDetail _ _ _

namespace Scratchpad

variable (p : Scratchpad) (kind : SetKind)

theorem free_room (a : Int) : (p.room a).Free t := by
  have hsize : (p.functions.exactSize a).Free t := by
    rw [FunctionTable.exactSize]
    split
    · rfl
    · exact (free_note _ _ _).bind fun _ => rfl
  exact (hsize.bind_pure _).bind_pure _

/-- Writing the text of a set counts nothing. -/
theorem free_setText (s : EntrySet) : (p.setText s).Free t := by
  refine Analysis.Free.bind_pure (Analysis.free_collect (fun e => ?_) s) _
  exact (p.free_room e.address).bind fun _ => (Analysis.free_write _).bind_pure _

theorem free_occupied (s : EntrySet) : (p.occupied s).Free t := by
  refine Analysis.free_follow (fun total e => ?_) 0 s
  exact (p.free_room e.address).bind_pure _

theorem free_reportSet (s : EntrySet) : (p.reportSet kind s).Free t :=
  (p.free_setText s).bind fun _ => free_note _ _ _

theorem free_shifted (size : Int) (e : Entry) : (p.shifted size e).Free t := by
  refine (p.free_room e.address).bind fun _ => ?_
  split
  · exact (free_note _ _ _).bind_pure _
  · rfl

theorem free_moved (f : Entry) (size : Int) (e : Entry) : (p.moved kind f size e).Free t := by
  refine (p.free_room e.address).bind fun _ => ?_
  dsimp only
  split
  · cases kind with
    | must => rfl
    | may => exact (free_note _ _ _).bind_pure _
  · rfl

/-- Finding what survives an access counts nothing. -/
theorem free_survivors (s : EntrySet) (a size : Int) : (p.survivors kind s a size).Free t := by
  rw [survivors]
  split
  · exact (free_note _ _ _).bind fun _ => Analysis.free_collect (p.free_shifted size) s
  · exact (free_note _ _ _).bind fun _ => Analysis.free_collect (p.free_moved kind _ size) _

/-- An access to one set counts nothing, since only whole states are reported. -/
theorem free_accessed (s : EntrySet) (a size : Int) : (p.accessed kind s a size).Free t := by
  refine (p.free_survivors kind s a size).bind fun _ => ?_
  refine Analysis.Free.bind_pure (free_inDetail ?_) _
  exact (p.free_reportSet kind _).bind fun _ =>
    (p.free_occupied _).bind fun _ => free_note _ _ _

/-- An access to a scratchpad reports the state that it yields. -/
theorem produces_access (s : State) (a : Int) : (p.access s a).Produces t := by
  refine (free_note _ _ _).produces fun _ => (p.free_room a).produces fun size => ?_
  split
  · -- A function that is too large leaves the state as it is, and this counts as a new state.
    rw [outsized]
    split
    · exact (free_note _ _ _).produces fun _ => Analysis.produces_count s
    · exact (free_note _ _ _).produces fun _ => Analysis.produces_fail _
  · refine (p.free_accessed .must s.must a size).produces fun must => ?_
    refine (p.free_accessed .may s.may a size).produces fun may => ?_
    exact Analysis.produces_count _

end Scratchpad

namespace Policy

variable (p : Policy)

theorem free_setText (s : EntrySet) : (p.setText s).Free t := by
  cases p with
  | scratchpad p => exact p.free_setText s
  | lruCache c => exact Analysis.free_write _
  | directMapped c => exact Analysis.free_write _

/-- The join of two states by the model counts nothing. -/
theorem free_mergeTwo (s u : State) : (p.mergeTwo s u).Free t := by
  cases p with
  | lruCache c =>
    refine (Analysis.free_ofExcept _).bind fun _ => ?_
    exact (free_noteInDetail _ _ _).bind fun _ => (free_noteInDetail _ _ _).bind_pure _
  | directMapped c =>
    show (c.joinTwo s u).Free t
    rw [DirectMapped.joinTwo]
    split
    · refine (Analysis.free_ofExcept _).bind fun _ => ?_
      exact (free_noteInDetail _ _ _).bind fun _ => (free_noteInDetail _ _ _).bind_pure _
    · exact (free_noteInDetail _ _ _).bind fun _ => (free_noteInDetail _ _ _).bind_pure _
  | scratchpad p =>
    refine (Analysis.free_ofExcept _).bind fun _ => ?_
    refine Analysis.Free.bind_pure (free_inDetail ?_) _
    exact (p.free_reportSet .must _).bind fun _ => p.free_reportSet .may _

/-- The states that a join goes through are not counted. -/
theorem free_joinTwo (s u : State) : (p.joinTwo s u).Free t := by
  have hreport : ∀ kind, (p.reportJoin kind s u).Free t := fun kind =>
    (p.free_setText _).bind fun _ => (p.free_setText _).bind fun _ => free_note _ _ _
  refine Analysis.Free.bind (free_inDetail ?_) fun _ => p.free_mergeTwo s u
  exact (hreport .must).bind fun _ => hreport .may

/-- The blank state is reported. -/
theorem produces_initial : p.initial.Produces t :=
  Analysis.produces_count _

/-- An access reports the state that it yields. -/
theorem produces_access (s : State) (a : Int) : (p.access s a).Produces t := by
  cases p with
  | scratchpad p => exact p.produces_access s a
  | lruCache c =>
    refine (c.free_reportAccess .must s.must a).produces fun _ => ?_
    refine (c.free_reportAccess .may s.may a).produces fun _ => ?_
    exact Analysis.produces_count _
  | directMapped c =>
    refine (Analysis.free_ofExcept _).produces fun _ => ?_
    refine (c.free_reportAccess s.must a).produces fun _ => ?_
    refine (c.free_reportAccess s.may a).produces fun _ => ?_
    exact Analysis.produces_count _

/-- A join reports its final state. -/
theorem produces_join (ss : List State) : (p.join ss).Produces t := by
  rcases ss with _ | ⟨s, _ | ⟨u, rest⟩⟩
  · exact Analysis.produces_fail _
  · exact Analysis.produces_fail _
  · have hjoin : Analysis.Produces (Analysis.follow p.joinTwo s (u :: rest) >>= fun joined =>
        Analysis.count joined.usage >>= fun _ => pure joined) t :=
      Analysis.Free.produces (Analysis.free_follow p.free_joinTwo s _)
        Analysis.produces_count
    rw [join]
    split
    · exact (free_note _ _ _).produces fun _ => hjoin
    · exact hjoin

/-! ### Trails -/

/-- The states that accesses lead to, one after another, up to an access that fails. -/
def trail (p : Policy) (t : Journal) : State → List Int → List State
  | _, [] => []
  | s, a :: as =>
    match (p.access s a t).result with
    | .error _ => []
    | .ok next => next :: p.trail t next as

/-- Steps that carry out accesses, whatever else they keep, report the trail of the accesses. -/
theorem usage_follow {α : Type} {f : α → Int → Analysis α} (state : α → State)
    (hresult : ∀ x a, (f x a t).result.map state = (p.access (state x) a t).result)
    (husage : ∀ x a, (f x a t).usage = (p.access (state x) a t).usage) (x : α) (as : List Int) :
    (Analysis.follow f x as t).usage = Usage.ofStates (p.trail t (state x) as) := by
  induction as generalizing x with
  | nil => rfl
  | cons a as ih =>
    have haccess := hresult x a
    have hstep : (f x a t).usage = _ := (husage x a).trans (p.produces_access (state x) a)
    rw [Analysis.follow, trail]
    cases h : (f x a t).result with
    | error e =>
      rw [h] at haccess
      rw [Analysis.bind_error h, hstep, ← haccess]
      rfl
    | ok next =>
      rw [h] at haccess
      rw [Analysis.bind_ok h, hstep, ih, ← haccess]
      exact (Usage.ofStates_append [state next] _).symm

/-- A walk reports its trail. -/
theorem usage_walk (s : State) (as : List Int) :
    (p.walk s as t).usage = Usage.ofStates (p.trail t s as) := by
  refine p.usage_follow (fun s => s) (fun s a => ?_) (fun _ _ => rfl) s as
  cases (p.access s a t).result with
  | error e => rfl
  | ok next => rfl

/-- To judge accesses reports what it reports to carry them out. -/
theorem usage_judgeAll (s : State) (as : List Int) :
    (p.judgeAll s as t).usage = Usage.ofStates (p.trail t s as) := by
  refine p.usage_follow Summary.final (fun done a => ?_) (fun done a => ?_) ⟨[], s⟩ as
  · rw [judge, Analysis.result_note_bind (by rfl), Analysis.result_bind]
    cases (p.access done.final a t).result with
    | error e => rfl
    | ok next => rfl
  · have hnote : (Analysis.note .debug .verdict
        (Text.hex8 a ++ ": " ++ (done.final.verdict a).words) t).result = .ok () :=
      Analysis.result_note _ _ _ t
    rw [judge, (free_note _ _ _).usage_bind hnote, Analysis.usage_bind_pure]

/-- Where no access fails there is one state for each. -/
theorem length_trail {s out : State} {as : List Int} (h : (p.walk s as t).result = .ok out) :
    (p.trail t s as).length = as.length := by
  induction as generalizing s with
  | nil => rfl
  | cons a as ih =>
    obtain ⟨next, hnext, h⟩ := Analysis.result_follow_cons.1 h
    rw [trail, hnext]
    exact congrArg (· + 1) (ih h)

end Policy

/-! ### The loop of the solver -/

section

variable {p : Policy} {g : Graph} {entry : NodeId}

/-- Is the state in front of a node a new one?  It is at the entry and where forward edges meet;
elsewhere it is the one behind the only predecessor. -/
def Graph.isFresh (g : Graph) (entry n : NodeId) : Bool :=
  n = entry ∨ 2 ≤ (g.sourcesOf n (some .forward)).length

/-- Starting a node reports the state in front of it if this is a new one. -/
theorem usage_start {s : Solution} {id : NodeId} {start : Analysis State}
    (h : startState? p g entry s id = some start) :
    (start t).usage =
      Usage.ofStates (if g.isFresh entry id then (start t).result.toOption.toList else []) := by
  by_cases hid : id = entry
  · rw [hid, startState?_entry] at h
    obtain rfl := Option.some.inj h
    rw [if_pos (by simp [Graph.isFresh, hid])]
    exact p.produces_initial
  · obtain ⟨outs, houts, ⟨only, rfl, rfl⟩ | ⟨hmany, rfl⟩⟩ := outs_of_startState? h hid
    · rw [if_neg (by simp [Graph.isFresh, hid, houts.length_eq])]
      rfl
    · rcases outs with _ | ⟨first, _ | ⟨second, outs⟩⟩
      · -- A join of no states fails.
        rw [if_neg (by simp [Graph.isFresh, hid, houts.length_eq])]
        rfl
      · exact absurd rfl hmany
      · rw [if_pos (by simp [Graph.isFresh, houts.length_eq])]
        exact p.produces_join _

theorem free_reportStart (p : Policy) (id : NodeId) (state : State) :
    (reportStart p id state).Free t := by
  apply free_inDetail
  refine (free_note _ _ _).bind fun _ => (p.free_setText _).bind fun _ => ?_
  exact (free_note _ _ _).bind fun _ => (p.free_setText _).bind fun _ => free_note _ _ _

/-- The states that are reported for a node with the given state in front of it: that state, if
it is a new one, and the trail of the node's accesses. -/
def Graph.statesAt (g : Graph) (p : Policy) (entry : NodeId) (t : Journal) (c : NodeId × State) :
    List State :=
  (if g.isFresh entry c.1 then [c.2] else []) ++ p.trail t c.2 (g.accessesOf c.1)

/-- The analysis leaves a solution with more nodes than the given one, and reports the states of
these. -/
def Reports (p : Policy) (g : Graph) (entry : NodeId) (s : Solution)
    (x : Analysis (Solution × Except Fault Unit)) (t : Journal) : Prop :=
  ∃ s' ended new, (x t).result = .ok (s', ended) ∧ s'.before = s.before ++ new ∧
    (x t).usage = Usage.ofStates (new.flatMap (g.statesAt p entry t))

theorem reports_pure (p : Policy) (g : Graph) (entry : NodeId) (s : Solution)
    (ended : Except Fault Unit) : Reports p g entry s (pure (s, ended)) t :=
  ⟨s, ended, [], rfl, (List.append_nil _).symm, rfl⟩

/-- However the loop ends, it has reported the states of the nodes that it has added. -/
theorem reports_solve (p : Policy) (g : Graph) (entry : NodeId) (stack : List NodeId)
    (s : Solution) : Reports p g entry s (solve p g entry stack s) t := by
  induction stack, s using solve.induct p g entry with
  | case1 s =>
    rw [solve]
    exact reports_pure p g entry s _
  | case2 s id rest hs ih =>
    rw [solve, dif_pos hs]
    exact ih
  | case3 s id rest hs hid =>
    rw [solve, dif_neg hs, dif_pos hid]
    exact reports_pure p g entry s _
  | case4 s id rest hs hid hstart ih =>
    rw [solve, dif_neg hs, dif_neg hid, hstart]
    exact ih
  | case5 s id rest hs hid start hstart ih =>
    rw [solve, dif_neg hs, dif_neg hid, hstart]
    have husage := usage_start (t := t) hstart
    dsimp only
    cases hstate : (start t).result with
    | error e =>
      simp only [Reports, Analysis.attempt_bind_apply, hstate]
      refine ⟨s, .error e, [], rfl, (List.append_nil _).symm, ?_⟩
      rw [husage, hstate]
      split <;> rfl
    | ok state =>
      have hnode : Usage.ofStates (g.statesAt p entry t (id, state)) =
          (start t).usage + (p.walk state (g.accessesOf id) t).usage := by
        rw [husage, hstate, p.usage_walk]
        exact Usage.ofStates_append _ _
      have hfree : (reportStart p id state t).usage = Usage.zero := free_reportStart p id state
      cases hout : (p.walk state (g.accessesOf id) t).result with
      | error e =>
        -- The state in front of the node stays behind, with the states up to the failing access.
        simp only [Reports, Analysis.attempt_bind_apply, hstate, hout]
        refine ⟨s.enter id state, .error e, [(id, state)], rfl, rfl, ?_⟩
        rw [List.flatMap_singleton, hnode, Analysis.usage_pure, Usage.add_zero]
      | ok out =>
        cases hreport : (reportStart p id state t).result with
        | error e =>
          simp only [Reports, Analysis.attempt_bind_apply, hstate, hout, hreport]
          refine ⟨(s.enter id state).leave id out, .error e, [(id, state)], rfl, rfl, ?_⟩
          rw [List.flatMap_singleton, hnode, hfree, Analysis.usage_pure, Usage.add_zero,
            Usage.add_zero]
        | ok =>
          obtain ⟨s', ended, new, hresult, hbefore, hnew⟩ := ih state out
          simp only [Reports, Analysis.attempt_bind_apply, hstate, hout, hreport]
          refine ⟨s', ended, (id, state) :: new, hresult, ?_, ?_⟩
          · rw [hbefore]
            exact List.append_assoc s.before [(id, state)] new
          · rw [hfree, Usage.zero_add, hnew, List.flatMap_cons, Usage.ofStates_append, hnode,
              Usage.add_assoc]

/-! ### The states that a table shows -/

/-- For the nodes of a table there are the new states in front of them and one for each access,
if no access fails. -/
theorem Graph.length_statesAt {table : StateTable}
    (h : ∀ c ∈ table, ∃ out, (p.walk c.2 (g.accessesOf c.1) t).result = .ok out) :
    (table.flatMap (g.statesAt p entry t)).length =
      table.countP (fun c => g.isFresh entry c.1) +
        (table.map fun c => (g.accessesOf c.1).length).sum := by
  induction table with
  | nil => rfl
  | cons c table ih =>
    obtain ⟨out, hout⟩ := h c List.mem_cons_self
    have hnode : (g.statesAt p entry t c).length =
        (if g.isFresh entry c.1 then 1 else 0) + (g.accessesOf c.1).length := by
      rw [statesAt, List.length_append, p.length_trail hout]
      split <;> rfl
    rw [List.flatMap_cons, List.length_append, hnode, List.countP_cons, List.map_cons,
      List.sum_cons, ih fun c' hc' => h c' (List.mem_cons_of_mem c hc')]
    omega

/-- In the trails of the nodes of a table there is one state for each access, if no access fails. -/
theorem Graph.length_trails {table : StateTable}
    (h : ∀ c ∈ table, ∃ out, (p.walk c.2 (g.accessesOf c.1) t).result = .ok out) :
    (table.flatMap fun c => p.trail t c.2 (g.accessesOf c.1)).length =
      (table.map fun c => (g.accessesOf c.1).length).sum := by
  rw [List.length_flatMap]
  refine congrArg List.sum (List.map_congr_left fun c hc => ?_)
  obtain ⟨out, hout⟩ := h c hc
  exact p.length_trail hout

/-- Of the new states one is that of the entry, the others are joins. -/
theorem Graph.countP_isFresh {table : StateTable} (hnodup : (table.map Prod.fst).Nodup)
    (hentry : entry ∈ table.map Prod.fst) :
    table.countP (fun c => g.isFresh entry c.1) =
      1 + table.countP fun c => c.1 ≠ entry ∧ 2 ≤ (g.sourcesOf c.1 (some .forward)).length := by
  have hsplit : ∀ table : StateTable, table.countP (fun c => g.isFresh entry c.1) =
      table.countP (fun c => c.1 == entry) +
        table.countP fun c => c.1 ≠ entry ∧ 2 ≤ (g.sourcesOf c.1 (some .forward)).length := by
    intro table
    induction table with
    | nil => rfl
    | cons c table ih =>
      rw [List.countP_cons, List.countP_cons, List.countP_cons, ih]
      by_cases hc : c.1 = entry
      · simp [isFresh, hc]
        omega
      · simp [isFresh, hc]
        omega
  have hone : (table.map Prod.fst).countP (· == entry) = 1 :=
    List.count_eq_one_of_mem hnodup hentry
  rw [List.countP_map] at hone
  rw [hsplit, ← hone]
  rfl

end

/-! ### Runs and verdicts -/

namespace Solver

variable {p : Policy} {g : Graph}

theorem free_reportSkipped (g : Graph) (entry : NodeId) (s : Solution) :
    (reportSkipped g entry s).Free t := by
  rw [reportSkipped]
  split
  · rfl
  · exact free_note _ _ _

/-- The states that a run reports: those of the nodes that it adds to the table. -/
def runStates (p : Policy) (g : Graph) (t : Journal) (a : Solver) : List State :=
  (a.run p g t).result.toOption.toList.flatMap fun r =>
    (r.1.solution.before.drop a.solution.before.length).flatMap (g.statesAt p a.entry t)

/-- However a run ends, it has reported the states of the nodes that it has added. -/
theorem run_adds (p : Policy) (g : Graph) (a : Solver) :
    ∃ a' ended new, (a.run p g t).result = .ok (a', ended) ∧
      a'.solution.before = a.solution.before ++ new ∧
      (a.run p g t).usage = Usage.ofStates (new.flatMap (g.statesAt p a.entry t)) := by
  by_cases ha : a.finished = true
  · rw [run, if_pos ha]
    exact ⟨a, _, [], rfl, (List.append_nil _).symm, rfl⟩
  · obtain ⟨s, ended, new, hsolve, hbefore, husage⟩ :=
      reports_solve (t := t) p g a.entry [a.entry] a.solution
    have husage' := (Usage.add_zero _).trans husage
    rw [run, if_neg ha, Analysis.bind_ok hsolve]
    cases ended with
    | error e => exact ⟨_, _, new, rfl, hbefore, husage'⟩
    | ok =>
      have hfree : (reportSkipped g a.entry s t).usage = Usage.zero :=
        free_reportSkipped g a.entry s
      dsimp only
      rw [Analysis.attempt_bind_apply, hfree]
      cases (reportSkipped g a.entry s t).result with
      | error e => exact ⟨_, _, new, rfl, hbefore, husage'⟩
      | ok => exact ⟨_, _, new, rfl, hbefore, husage'⟩

/-- A run reports the states of the nodes that it adds. -/
theorem usage_run (p : Policy) (g : Graph) (a : Solver) :
    (a.run p g t).usage = Usage.ofStates (a.runStates p g t) := by
  obtain ⟨a', ended, new, hresult, hbefore, husage⟩ := run_adds (t := t) p g a
  rw [husage, runStates, hresult]
  simp [Except.toOption, hbefore]

/-- The states that are reported while the nodes of a table are judged, up to a node that
fails. -/
def judgedStates (p : Policy) (g : Graph) (t : Journal) : StateTable → List State
  | [] => []
  | c :: table =>
    if g.has c.1 then
      p.trail t c.2 (g.accessesOf c.1) ++
        if (judgeNode p g c t).result.isOk then judgedStates p g t table else []
    else []

/-- Judging a node reports the trail of its accesses. -/
theorem usage_judgeNode {c : NodeId × State} (h : g.has c.1 = true) :
    (judgeNode p g c t).usage = Usage.ofStates (p.trail t c.2 (g.accessesOf c.1)) := by
  have haccesses : (Analysis.ofExcept (g.accesses c.1) t).result = .ok (g.accessesOf c.1) :=
    accesses_eq_ok.2 ⟨h, rfl⟩
  rw [judgeNode, (Analysis.free_ofExcept _).usage_bind haccesses, Analysis.usage_bind_pure,
    p.usage_judgeAll]

/-- Judging the nodes of a table reports their trails, up to one that fails. -/
theorem usage_judgeNodes (p : Policy) (g : Graph) (table : StateTable) :
    (judgeNodes p g table t).usage = Usage.ofStates (judgedStates p g t table) := by
  induction table with
  | nil => rfl
  | cons c table ih =>
    rw [judgedStates]
    by_cases hid : g.has c.1 = true
    · rw [if_pos hid, Usage.ofStates_append, ← usage_judgeNode hid]
      cases hjudge : (judgeNode p g c t).result with
      | error e =>
        exact (Analysis.usage_collect_of_error hjudge table).trans (Usage.add_zero _).symm
      | ok o => exact (Analysis.usage_collect_of_ok hjudge table).trans (congrArg _ ih)
    · -- A node that is not in the graph fails before anything is reported.
      rw [if_neg hid]
      cases haccesses : (Analysis.ofExcept (g.accesses c.1) t).result with
      | ok accesses => exact absurd (accesses_eq_ok.1 haccesses).1 hid
      | error e =>
        have hnode : judgeNode p g c t = ⟨.error e, _, _⟩ := Analysis.bind_error haccesses _
        exact (Analysis.usage_collect_of_error (congrArg Outcome.result hnode) table).trans
          (congrArg Outcome.usage hnode)

/-- If the nodes of a table can be judged, their trails are reported. -/
theorem judgedStates_eq {table : StateTable} {summaries : List (NodeId × Summary)}
    (h : (judgeNodes p g table t).result = .ok summaries) :
    judgedStates p g t table = table.flatMap fun c => p.trail t c.2 (g.accessesOf c.1) := by
  induction judgeNodes_eq_ok.1 h with
  | nil => rfl
  | @cons c summary table summaries hc hrest ih =>
    obtain ⟨-, hid, hjudge⟩ := hc
    have hnode : (judgeNode p g c t).result = _ := judgeNode_eq_ok.2 ⟨_, rfl, hid, hjudge⟩
    rw [judgedStates, if_pos hid, hnode, List.flatMap_cons, ← ih (judgeNodes_eq_ok.2 hrest)]
    rfl

/-- Nodes that could be judged can be walked through. -/
theorem walked_of_judgeNodes {table : StateTable} {summaries : List (NodeId × Summary)}
    (h : (judgeNodes p g table t).result = .ok summaries) :
    ∀ c ∈ table, ∃ out, (p.walk c.2 (g.accessesOf c.1) t).result = .ok out := by
  induction judgeNodes_eq_ok.1 h with
  | nil => simp
  | @cons c summary table summaries hc hrest ih =>
    obtain ⟨-, -, hjudge⟩ := hc
    exact List.forall_mem_cons.2 ⟨⟨_, (Policy.judged_of_judgeAll hjudge).1⟩,
      ih (judgeNodes_eq_ok.2 hrest)⟩

end Solver

/-! ### What a client does -/

/-- The states that a request reports. -/
def Policy.reported (p : Policy) (t : Journal) (given : List State) : Request → List State
  | .blank => [State.blank p.capacity]
  | .access i a => p.trail t (p.named given i) [a]
  | .walk i as => p.trail t (p.named given i) as
  | .join is => (p.join (is.map (p.named given)) t).result.toOption.toList
  | .judge i as => p.trail t (p.named given i) as

/-- A request counts the states that it reports. -/
theorem Policy.usage_respond (p : Policy) (given : List State) (r : Request) :
    (p.respond given r t).usage = Usage.ofStates (p.reported t given r) := by
  cases r with
  | blank => exact (Analysis.usage_bind_pure _ _).trans p.produces_initial
  | access i a =>
    refine (Analysis.usage_bind_pure _ _).trans ((p.produces_access _ a).trans ?_)
    rw [reported, trail]
    cases (p.access (p.named given i) a t).result with
    | error e => rfl
    | ok next => rfl
  | walk i as => exact (Analysis.usage_bind_pure _ _).trans (p.usage_walk _ as)
  | join is => exact (Analysis.usage_bind_pure _ _).trans (p.produces_join _)
  | judge i as => exact (Analysis.usage_bind_pure _ _).trans (p.usage_judgeAll _ as)

/-- The states that a call reports: those of the run that it starts, and of the nodes that it
judges. -/
def Solver.reported (p : Policy) (g : Graph) (t : Journal) (a : Solver) : Call → List State
  | .run => a.runStates p g t
  | .before id => if g.has id then a.runStates p g t else []
  | .after id => if g.has id then a.runStates p g t else []
  | .verdicts => a.runStates p g t ++
    match (a.run p g t).result with
    | .ok (_, .ok table) => judgedStates p g t table
    | _ => []

/-- A question about a node of the graph counts what the run counts. -/
theorem Solver.usage_ask (p : Policy) (g : Graph) (a : Solver) (id : NodeId)
    (f : Solution → Option State) : (a.ask p g id f t).usage =
      Usage.ofStates (if g.has id then a.runStates p g t else []) := by
  rw [ask, Graph.requireNode]
  by_cases hid : g.has id = true
  · rw [if_pos hid, if_pos hid]
    exact (Analysis.usage_bind_pure _ _).trans (usage_run p g a)
  · rw [if_neg hid, if_neg hid]
    rfl

/-- The verdicts count what the run and the judging of its table count. -/
theorem Solver.usage_verdicts (p : Policy) (g : Graph) (a : Solver) :
    (a.verdicts p g t).usage = Usage.ofStates (a.reported p g t .verdicts) := by
  obtain ⟨a', ended, -, hrun, -⟩ := run_adds (t := t) p g a
  rw [verdicts, Analysis.bind_ok hrun, reported, Usage.ofStates_append, usage_run, hrun]
  cases ended with
  | error e => rfl
  | ok table =>
    dsimp only
    rw [Analysis.attempt_bind_apply, usage_judgeNodes, Analysis.usage_pure, Usage.add_zero]

/-- The first run of a solver reports the states of all nodes of its table. -/
theorem Solver.usage_run_of_new {p : Policy} {g : Graph} {entry : NodeId} {a : Solver}
    {table : StateTable}
    (h : (run p g ⟨entry, Solution.empty, false⟩ t).result = .ok (a, .ok table)) :
    (run p g ⟨entry, Solution.empty, false⟩ t).usage =
      Usage.ofStates (table.flatMap (g.statesAt p entry t)) := by
  rw [usage_run, runStates, h, table_of_run h]
  exact congrArg Usage.ofStates (List.append_nil _)

/-- A solver that has finished reports the trails of its nodes when it judges them. -/
theorem Solver.usage_verdicts_of_finished {p : Policy} {g : Graph} (entry : NodeId) {s : Solution}
    {summaries : List (NodeId × Summary)}
    (h : (judgeNodes p g s.before t).result = .ok summaries) :
    (verdicts p g ⟨entry, s, true⟩ t).usage =
      Usage.ofStates (s.before.flatMap fun c => p.trail t c.2 (g.accessesOf c.1)) := by
  have hnothing : runStates p g t ⟨entry, s, true⟩ = [] := by
    rw [runStates, run_of_finished]
    simp [Except.toOption]
  rw [usage_verdicts, reported, hnothing, run_of_finished, ← judgedStates_eq h]
  rfl

/-- A call counts the states that it reports. -/
theorem Solver.usage_reply (p : Policy) (g : Graph) (a : Solver) (c : Call) :
    (a.reply p g c t).usage = Usage.ofStates (a.reported p g t c) := by
  cases c with
  | run => exact (Analysis.usage_bind_pure _ _).trans (usage_run p g a)
  | before id => exact (Analysis.usage_bind_pure _ _).trans (usage_ask p g a id _)
  | after id => exact (Analysis.usage_bind_pure _ _).trans (usage_ask p g a id _)
  | verdicts => exact (Analysis.usage_bind_pure _ _).trans (usage_verdicts p g a)

/-- What a client does with memories and solvers whose usage is counted together. -/
inductive Action where
  /-- Asks a policy for something, with any states at hand. -/
  | request (p : Policy) (given : List State) (r : Policy.Request)
  /-- Calls a solver, whatever it has found so far. -/
  | call (p : Policy) (g : Graph) (a : Solver) (c : Solver.Call)
  /-- Asks for the text of a set. -/
  | text (p : Policy) (s : EntrySet)
  /-- Asks for the bytes of a function. -/
  | room (p : Scratchpad) (address : Int)
  /-- Asks for the bytes of all functions in a set. -/
  | occupied (p : Scratchpad) (s : EntrySet)
  /-- Starts to count anew. -/
  | reset

/-- Does the action start to count anew? -/
def Action.isReset : Action → Bool
  | .reset => true
  | _ => false

/-- The states that an action reports, whether it fails or not. -/
def Action.reported (t : Journal) : Action → List State
  | .request p given r => p.reported t given r
  | .call p g a c => a.reported p g t c
  | _ => []

/-- The states that actions have reported since the counters were last reset. -/
def Action.sinceReset (actions : List (Journal × Action)) : List State :=
  (actions.rtakeWhile fun a => !a.2.isReset).flatMap fun a => a.2.reported a.1

namespace Usage

/-- The counters after an action, whether it fails or not. -/
def after (t : Journal) (u : Usage) : Action → Usage
  | .request p given r => u + (p.respond given r t).usage
  | .call p g a c => u + (a.reply p g c t).usage
  | .text p s => u + (p.setText s t).usage
  | .room p a => u + (p.room a t).usage
  | .occupied p s => u + (p.occupied s t).usage
  | .reset => Usage.zero

/-- The counters after some actions, each with the journal of its time. -/
def afterAll (u : Usage) (actions : List (Journal × Action)) : Usage :=
  actions.foldl (fun u a => u.after a.1 a.2) u

/-- An action that is no reset adds the states that it reports. -/
theorem after_eq {a : Action} (ha : a.isReset = false) (u : Usage) :
    u.after t a = u + ofStates (a.reported t) := by
  cases a with
  | request p given r => exact congrArg (u + ·) (p.usage_respond given r)
  | call p g a c => exact congrArg (u + ·) (a.usage_reply p g c)
  | text p s => exact congrArg (u + ·) (p.free_setText s)
  | room p a => exact congrArg (u + ·) (p.free_room a)
  | occupied p s => exact congrArg (u + ·) (p.free_occupied s)
  | reset => cases ha

/-- The counters are those of the states that were reported since they were reset. -/
theorem afterAll_eq (actions : List (Journal × Action)) :
    zero.afterAll actions = ofStates (Action.sinceReset actions) := by
  -- Induction on the actions from the last one back.
  induction actions using List.reverseRecOn with
  | nil => rfl
  | append_singleton actions a ih =>
    rw [afterAll, List.foldl_append, Action.sinceReset]
    show (zero.afterAll actions).after a.1 a.2 = _
    obtain ⟨t, a⟩ := a
    cases ha : a.isReset with
    | true =>
      rw [List.rtakeWhile_concat_neg _ _ _ (by simp [ha])]
      cases a with
      | reset => rfl
      | _ => cases ha
    | false =>
      rw [List.rtakeWhile_concat_pos _ _ _ (by simp [ha]), List.flatMap_append,
        List.flatMap_singleton, ofStates_append, after_eq ha, ih]
      rfl

end Usage

/-- **Usage is exact.**  A successful run of a new solver counts one state for the entry, one for
each access of a node in its table, and one for each other node in the table at which two or more
forward edges meet.  The solver counts nothing when it runs again, and when it judges its nodes it
counts one state for each access.  These states are known, and with them the addresses that are
counted: for each node of the table the new state in front of it and the trail of its accesses.
Whatever a client does, and whatever of it fails, the counters are in balance, and they are those
of the states that were reported since the last reset. -/
theorem Usage.counted_exactly :
    (∀ (p : Policy) (g : Graph) (entry : NodeId) (a a' : Solver) (t : Journal)
        (table : StateTable), Solver.make g entry = .ok a →
      (a.run p g t).result = .ok (a', .ok table) →
      (a.run p g t).usage.states =
        1 + ((table.map fun c => (g.accessesOf c.1).length).sum : Nat) +
          (table.countP fun c => c.1 ≠ entry ∧ 2 ≤ (g.sourcesOf c.1 (some .forward)).length : Nat) ∧
      (∀ t', (a'.run p g t').usage = Usage.zero) ∧
      (a'.verdicts p g t).usage.states =
        ((table.map fun c => (g.accessesOf c.1).length).sum : Nat) ∧
      (a.run p g t).usage = Usage.ofStates (table.flatMap (g.statesAt p entry t)) ∧
      (a'.verdicts p g t).usage =
        Usage.ofStates (table.flatMap fun c => p.trail t c.2 (g.accessesOf c.1))) ∧
    ∀ actions, (Usage.zero.afterAll actions).Balanced ∧
      Usage.zero.afterAll actions = Usage.ofStates (Action.sinceReset actions) := by
  refine ⟨?_, fun actions => ?_⟩
  · intro p g entry a a' t table hmake hrun
    obtain ⟨s, hturns, rfl, rfl⟩ := Solver.turns_of_run hmake hrun
    obtain rfl := Solver.eq_of_make hmake
    obtain ⟨hnodes, summaries, hjudge⟩ := Solver.judged_of_turns hturns
    have hnodup := (sound_and_complete_of_turns hturns).1.nodup
    have hwalks := Solver.walked_of_judgeNodes hjudge
    have hfirst := Solver.usage_run_of_new hrun
    have hverdicts := Solver.usage_verdicts_of_finished entry hjudge
    refine ⟨?_, fun t' => rfl, ?_, hfirst, hverdicts⟩
    · rw [hfirst, states_ofStates, Graph.length_statesAt hwalks,
        Graph.countP_isFresh hnodup ((hnodes entry).2 .entry)]
      push_cast
      omega
    · rw [hverdicts, states_ofStates, Graph.length_trails hwalks]
  · rw [afterAll_eq]
    exact ⟨balanced_ofStates _, rfl⟩

-- Two edges go from node 0 to node 1, and node 3 is dropped once before it can start.  The actions
-- fail in the middle, one of them before the counters are reset.
theorem Usage.counted_exactly_tangled :
    let p : Policy := .scratchpad .mixedSizes
    let t : Threshold := some .debug
    let actions : List (Journal × Action) := [(none, .request p [] (.walk 0 [1, 9])),
      (none, .reset), (t, .call p .strayCall ⟨.number 0, .empty, false⟩ .run)]
    (∃ a a' table, Solver.make .tangled (.number 0) = .ok a ∧
      (a.run p .tangled none).result = .ok (a', .ok table) ∧
      (a.run p .tangled none).usage.states = 1 + 4 + 2 ∧
      (a'.run p .tangled none).usage = Usage.zero ∧
      (a'.verdicts p .tangled none).usage.states = 4 ∧
      (a.run p .tangled none).usage =
        Usage.ofStates (table.flatMap (Graph.tangled.statesAt p (.number 0) none)) ∧
      (a.run p .tangled none).usage.references = 20) ∧
    (Usage.zero.afterAll actions).states = 2 ∧ (Usage.zero.afterAll actions).Balanced ∧
    Usage.zero.afterAll actions = Usage.ofStates (Action.sinceReset actions) ∧
    (Action.sinceReset actions).map State.size = [0, 2] := by
  intro p t actions
  obtain ⟨hsolver, hactions⟩ := counted_exactly
  refine ⟨⟨_, _, _, rfl, by cbv, ?_⟩, by cbv, (hactions actions).1, (hactions actions).2, by cbv⟩
  obtain ⟨hrun, hagain, hverdicts, hstates, -⟩ :=
    hsolver p .tangled (.number 0) _ _ none _ rfl (by cbv)
  exact ⟨hrun, hagain none, hverdicts, hstates, by cbv⟩

end Residency
