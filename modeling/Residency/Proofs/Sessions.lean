/-
Residency/Proofs/Sessions.lean

Sessions under different journals.  A client asks a policy for blank states, accesses, joins
and verdicts and passes back the states that it was given (`Policy.session`); or it calls a
solver, whose runs leave something for the next call (`Solver.session`).  All answers count,
also the faults, because a client goes on after a fault.

Whether records are kept has no influence on the answers and on the usage that is counted,
except for lapses: where everything is kept, a set with a number that is too long to be written
stops the request that reports it, and the answers before it are the same (`Analysis.Agrees`).
One step of a session is steady by what `Policy.Quiet` says of the policy;
`Analysis.agrees_converse` carries it along the session.
-/
import Mathlib
import Residency.Proofs.Dataflow
import Residency.Proofs.FailedRuns
import Residency.Proofs.Silence

namespace Residency

open Text (isWritable)

variable {lapse : Prop}

/-! ### Conversations -/

namespace Analysis

variable {α β ρ σ τ : Type} {I : σ → Prop} {J : τ → Prop} {t : Journal}

/-- Asks for one thing after another.  Each step leaves what the next one starts from, and
whether it failed or not, it has an answer. -/
def converse (step : σ → ρ → Analysis (σ × Except Fault α)) :
    σ → List ρ → Analysis (List (Except Fault α))
  | _, [] => pure []
  | a, r :: rs => do
    let (b, answer) ← step a r
    let answers ← converse step b rs
    return answer :: answers

/-- The answers and the usage are those of a conversation without records or, where lapses can
occur, the answers are the same up to one that stops at a number that is too long. -/
def Agrees (lapse : Prop) (x : Analysis (List (Except Fault α))) (t : Journal) : Prop :=
  x.Silent t ∨ lapse ∧ ∃ done answer rest rest',
    (x t).result = .ok (done ++ .error .unwritableNumber :: rest) ∧
    (x none).result = .ok (done ++ answer :: rest')

/-- The analysis is silent or, where lapses can occur, its answer is that a number is too long;
without records it leaves only what has the property. -/
structure Answers (lapse : Prop) (I : σ → Prop) (x : Analysis (σ × Except Fault α))
    (t : Journal) : Prop where
  steady : x.Silent t ∨ lapse ∧ ∃ a, (x t).result = .ok (a, .error .unwritableNumber)
  leaves : ∀ a r, (x none).result = .ok (a, r) → I a

theorem answers_pure {a : σ} (ha : I a) (r : Except Fault α) : Answers lapse I (pure (a, r)) t where
  steady := .inl (silent_pure _ t)
  leaves := by
    intro a' r' h
    obtain ⟨rfl, -⟩ := Prod.mk.inj (result_pure_eq_ok.1 h)
    exact ha

/-- What is attempted may lapse, if the answer then says so. -/
theorem Steady.attempt_bind {x : Analysis β} {f : Except Fault β → Analysis (σ × Except Fault α)}
    (hx : x.Steady lapse t)
    (hlapse : ∃ a, (f (.error .unwritableNumber) t).result = .ok (a, .error .unwritableNumber))
    (hf : ∀ r, (x none).result = r → (f r).Answers lapse I t) :
    (x.attempt >>= f).Answers lapse I t where
  steady := by
    rcases hx with hx | ⟨hl, hx⟩
    · have hattempt : x.attempt.Silent t := ⟨congrArg Except.ok hx.result, hx.usage⟩
      apply hattempt.bind_or (P := fun r : Except Fault (σ × Except Fault α) =>
        lapse ∧ ∃ a, r = .ok (a, .error .unwritableNumber))
      intro r hr
      exact (hf r (Except.ok.inj hr)).steady
    · refine .inr ⟨hl, ?_⟩
      rw [result_attempt_bind, hx]
      exact hlapse
  leaves := by
    intro a r h
    rw [result_attempt_bind] at h
    exact (hf _ rfl).leaves a r h

/-- Two steps of a conversation, of which the second passes a lapse on. -/
theorem Answers.bind {x : Analysis (σ × Except Fault α)}
    {f : σ × Except Fault α → Analysis (τ × Except Fault β)} (hx : x.Answers lapse I t)
    (hlapse : ∀ a, ∃ b, (f (a, .error .unwritableNumber) t).result =
      .ok (b, .error .unwritableNumber))
    (hf : ∀ a r, I a → (x none).result = .ok (a, r) → (f (a, r)).Answers lapse J t) :
    (x >>= f).Answers lapse J t where
  steady := by
    rcases hx.steady with hsilent | ⟨hl, a, ha⟩
    · apply hsilent.bind_or (P := fun r : Except Fault (τ × Except Fault β) =>
        lapse ∧ ∃ b, r = .ok (b, .error .unwritableNumber))
      rintro ⟨a, r⟩ hr
      exact (hf a r (hx.leaves a r hr) hr).steady
    · obtain ⟨b, hb⟩ := hlapse a
      exact .inr ⟨hl, b, (result_bind_of_ok ha).trans hb⟩
  leaves := by
    intro b r h
    obtain ⟨⟨a, r'⟩, ha, h⟩ := result_bind_eq_ok.1 h
    exact (hf a r' (hx.leaves a r' ha) ha).leaves b r h

/-- An answer in other words. -/
theorem Answers.map {x : Analysis (σ × Except Fault α)} (hx : x.Answers lapse I t)
    (f : σ → α → β) : Answers lapse I (x >>= fun c => pure (c.1, c.2.map (f c.1))) t :=
  hx.bind (fun a => ⟨a, rfl⟩) fun _ _ ha _ => answers_pure ha _

/-- A conversation goes on after faults, so it always ends with answers. -/
theorem succeeds_converse {step : σ → ρ → Analysis (σ × Except Fault α)}
    (hstep : ∀ a r, (step a r).Succeeds t) (a : σ) (rs : List ρ) :
    (converse step a rs).Succeeds t := by
  induction rs generalizing a with
  | nil => exact succeeds_pure [] t
  | cons r rs ih =>
    refine (hstep a r).bind fun c _ => ?_
    exact (ih c.1).bind fun answers _ => succeeds_pure _ t

theorem result_converse_cons {step : σ → ρ → Analysis (σ × Except Fault α)} {a b : σ} {r : ρ}
    {rs : List ρ} {answer : Except Fault α} {answers : List (Except Fault α)}
    (hstep : (step a r t).result = .ok (b, answer))
    (hrest : (converse step b rs t).result = .ok answers) :
    (converse step a (r :: rs) t).result = .ok (answer :: answers) := by
  rw [converse]
  exact result_bind_eq_ok.2 ⟨_, hstep, result_bind_eq_ok.2 ⟨_, hrest, rfl⟩⟩

/-- If every step is steady and leaves what the next one needs, so is the conversation. -/
theorem agrees_converse {step : σ → ρ → Analysis (σ × Except Fault α)}
    (htotal : ∀ t a r, (step a r).Succeeds t) (hstep : ∀ a, I a → ∀ r, (step a r).Answers lapse I t)
    {a : σ} (ha : I a) (rs : List ρ) : (converse step a rs).Agrees lapse t := by
  induction rs generalizing a with
  | nil => exact .inl (silent_pure [] t)
  | cons r rs ih =>
    obtain ⟨hsteady, hleaves⟩ := hstep a ha r
    obtain ⟨⟨b, answer⟩, hb⟩ := htotal none a r
    rcases hsteady with hsilent | ⟨hl, b', hb'⟩
    · have ht := hsilent.result.trans hb
      rcases ih (hleaves b answer hb) with hrest | ⟨hl, done, x, rest, rest', hrest, hrest'⟩
      · refine .inl (hsilent.bind fun c hc => ?_)
        obtain rfl := Except.ok.inj (hb.symm.trans hc)
        exact hrest.bind fun answers _ => silent_pure _ t
      · exact .inr ⟨hl, answer :: done, x, rest, rest', result_converse_cons ht hrest,
          result_converse_cons hb hrest'⟩
    · -- The answer to `r` is the first that differs.
      obtain ⟨rest, hrest⟩ := succeeds_converse (htotal t) b' rs
      obtain ⟨rest', hrest'⟩ := succeeds_converse (htotal none) b rs
      exact .inr ⟨hl, [], answer, rest, rest', result_converse_cons hb' hrest,
        result_converse_cons hb hrest'⟩

end Analysis

/-! ### Sessions with a policy -/

namespace Policy

/-- What a client asks of a policy.  States are named by the order in which they were given. -/
inductive Request where
  | blank
  | access (state : Nat) (address : Int)
  | walk (state : Nat) (addresses : List Int)
  | join (states : List Nat)
  | judge (state : Nat) (addresses : List Int)
deriving DecidableEq, Repr

/-- What a client is given. -/
inductive Answer where
  | state (s : State)
  | summary (s : Summary)
deriving DecidableEq, Repr

/-- The state in an answer. -/
def Answer.left : Answer → State
  | state s => s
  | summary s => s.final

/-- The state of the given name.  A name that was not given stands for the blank state. -/
def named (p : Policy) (given : List State) (i : Nat) : State :=
  given.getD i (State.blank p.capacity)

/-- Carries out a request. -/
def respond (p : Policy) (given : List State) : Request → Analysis Answer
  | .blank => do return .state (← p.initial)
  | .access i a => do return .state (← p.access (p.named given i) a)
  | .walk i as => do return .state (← p.walk (p.named given i) as)
  | .join is => do return .state (← p.join (is.map (p.named given)))
  | .judge i as => do return .summary (← p.judgeAll (p.named given i) as)

/-- Carries out a request and gives the client the state in the answer. -/
def serve (p : Policy) (given : List State) (r : Request) :
    Analysis (List State × Except Fault Answer) := do
  match ← (p.respond given r).attempt with
  | .error e => return (given, .error e)
  | .ok answer => return (given ++ [answer.left], .ok answer)

/-- The answers to the requests of a client, who is given nothing at first. -/
def session (p : Policy) (requests : List Request) : Analysis (List (Except Fault Answer)) :=
  Analysis.converse p.serve [] requests

variable {p : Policy} {G : State → Prop} {given : List State} {t : Threshold}

/-- What a client names has the property that all given states have. -/
theorem Quiet.named (hq : p.Quiet lapse t G) (hgiven : ∀ s ∈ given, G s) (i : Nat) :
    G (p.named given i) := by
  rw [Policy.named, List.getD_eq_getElem?_getD]
  cases h : given[i]? with
  | none => exact hq.blank
  | some s => exact hgiven s (List.mem_of_getElem? h)

theorem Quiet.initial (hq : p.Quiet lapse t G) : p.initial.Keeps lapse G t :=
  Analysis.keeps_count hq.blank

/-- A request is steady, and the state in its answer has the property. -/
theorem Quiet.respond (hq : p.Quiet lapse t G) (hgiven : ∀ s ∈ given, G s) (r : Request) :
    (p.respond given r).Keeps lapse (fun answer => G answer.left) t := by
  cases r with
  | blank => exact hq.initial.bind fun _ hs => Analysis.keeps_pure hs
  | access i a =>
    exact (hq.access (hq.named hgiven i) a).bind fun _ hs => Analysis.keeps_pure hs
  | walk i as => exact (hq.walk (hq.named hgiven i) as).bind fun _ hs => Analysis.keeps_pure hs
  | join is =>
    have hstates : ∀ s ∈ is.map (p.named given), G s := by
      intro s hs
      obtain ⟨i, -, rfl⟩ := List.mem_map.1 hs
      exact hq.named hgiven i
    exact (hq.joinAll hstates).bind fun _ hs => Analysis.keeps_pure hs
  | judge i as =>
    exact (hq.judgeAll (hq.named hgiven i) as).bind fun _ hs => Analysis.keeps_pure hs

/-- Serving a request leaves the client with states of the property. -/
theorem Quiet.serve (hq : p.Quiet lapse t G) (hgiven : ∀ s ∈ given, G s) (r : Request) :
    (p.serve given r).Answers lapse (fun given => ∀ s ∈ given, G s) t := by
  obtain ⟨hsteady, hvalue⟩ := hq.respond hgiven r
  refine hsteady.attempt_bind ⟨given, rfl⟩ fun result hresult => ?_
  cases result with
  | error e => exact Analysis.answers_pure hgiven _
  | ok answer =>
    apply Analysis.answers_pure
    intro s hs
    rcases List.mem_append.1 hs with hs | hs
    · exact hgiven s hs
    · obtain rfl := List.mem_singleton.1 hs
      exact hvalue answer hresult

theorem serve_of_ok {t : Journal} {r : Request} {answer : Answer}
    (h : (p.respond given r t).result = .ok answer) :
    (p.serve given r t).result = .ok (given ++ [answer.left], .ok answer) := by
  rw [serve, Analysis.result_attempt_bind, h]
  rfl

theorem serve_of_error {t : Journal} {r : Request} {e : Fault}
    (h : (p.respond given r t).result = .error e) :
    (p.serve given r t).result = .ok (given, .error e) := by
  rw [serve, Analysis.result_attempt_bind, h]
  rfl

/-- Serving a request gives an answer, whether it fails or not. -/
theorem succeeds_serve (p : Policy) (t : Journal) (given : List State) (r : Request) :
    (p.serve given r).Succeeds t := by
  cases h : (p.respond given r t).result with
  | error e => exact ⟨_, serve_of_error h⟩
  | ok answer => exact ⟨_, serve_of_ok h⟩

end Policy

/-! ### The loop of the solver -/

section

variable {p : Policy} {g : Graph} {entry : NodeId} {G : State → Prop} {t : Threshold}

/-- The states that were found have the property. -/
structure Solution.Kept (G : State → Prop) (s : Solution) : Prop where
  before : ∀ c ∈ s.before, G c.2
  after : ∀ n out, s.after? n = some out → G out

namespace Solution.Kept

variable {s : Solution} {state out : State}

theorem empty (G : State → Prop) : Solution.empty.Kept G where
  before := fun _ h => nomatch h
  after := fun _ _ h => nomatch h

/-- A state in front of a node may be added if it has the property. -/
theorem enter (hs : s.Kept G) (hstate : G state) (id : NodeId) : (s.enter id state).Kept G where
  before := by
    intro c hc
    rcases List.mem_append.1 hc with hc | hc
    · exact hs.before c hc
    · obtain rfl := List.mem_singleton.1 hc
      exact hstate
  after := hs.after

/-- A state behind a node may be added if it has the property. -/
theorem leave (hs : s.Kept G) (hout : G out) (id : NodeId) : (s.leave id out).Kept G where
  before := hs.before
  after := by
    intro n x hx
    rw [after?, Solution.leave, lookup_concat] at hx
    rcases Option.or_eq_some_iff.1 hx with hx | ⟨-, hx⟩
    · exact hs.after n x hx
    · split at hx
      · obtain rfl := Option.some.inj hx
        exact hout
      · cases hx

end Solution.Kept

/-- A node starts blank, from a state that was found or from a join of such states. -/
theorem Policy.Quiet.start (hq : p.Quiet lapse t G) {s : Solution} (hs : s.Kept G) {id : NodeId}
    {start : Analysis State} (hstart : startState? p g entry s id = some start) :
    start.Keeps lapse G t := by
  by_cases hid : id = entry
  · rw [hid, startState?_entry] at hstart
    obtain rfl := Option.some.inj hstart
    exact hq.initial
  · obtain ⟨outs, houts, hstarts⟩ := outs_of_startState? hstart hid
    have hall : ∀ out ∈ outs, G out := (forall_outs_iff houts).2 fun m out _ => hs.after m out
    rcases hstarts with ⟨only, rfl, rfl⟩ | ⟨-, rfl⟩
    · exact Analysis.keeps_pure (hall only List.mem_cons_self)
    · exact hq.joinAll hall

/-- The state in front of a node is reported without other effect, but for lapses. -/
theorem Policy.Quiet.reportStart (hq : p.Quiet lapse t G) (id : NodeId) {state : State}
    (hstate : G state) : (reportStart p id state).Steady lapse t := by
  apply Analysis.steady_inDetail
  intro ht
  refine (Analysis.harmless_note _ _ _ t).bind fun _ _ => ?_
  refine (hq.report hstate ht .must).bind fun _ _ => ?_
  refine (Analysis.harmless_note _ _ _ t).bind fun _ _ => ?_
  exact (hq.report hstate ht .may).bind fun _ _ => Analysis.harmless_note _ _ _ t

/-- A turn keeps the property of the states found. -/
theorem Turn.kept (hq : p.Quiet lapse t G) {c c' : Stage} (h : Turn p g entry none c c')
    (hc : c.2.Kept G) : c'.2.Kept G := by
  cases h with
  | known => exact hc
  | postponed => exact hc
  | settled hs hid hstart hstate hout =>
    have hG := (hq.start hc hstart).value _ hstate
    exact (hc.enter hG _).leave ((hq.walk hG _).value _ hout) _

/-- So does the end of the loop, also where it fails. -/
theorem Halts.kept (hq : p.Quiet lapse t G) {c : Stage} {s : Solution} {r : Except Fault Unit}
    (h : Halts p g entry none c (s, r)) (hc : c.2.Kept G) : s.Kept G := by
  cases h with
  | done => exact hc
  | unknown => exact hc
  | start => exact hc
  | walk hs hid hstart hstate =>
    exact hc.enter ((hq.start hc hstart).value _ hstate) _
  | report hs hid hstart hstate hout =>
    have hG := (hq.start hc hstart).value _ hstate
    exact (hc.enter hG _).leave ((hq.walk hG _).value _ hout) _

/-- The loop finds the same under every threshold, but for lapses. -/
theorem Policy.Quiet.solve (hq : p.Quiet lapse t G) (g : Graph) (entry : NodeId) {c : Stage}
    (hc : c.2.Kept G) : (solve p g entry c.1 c.2).Answers lapse (Solution.Kept G) t := by
  -- Induction on the measure, which each turn lowers; the turns are those without records.
  induction hm : c.measure g using Nat.strongRecOn generalizing c with
  | ind m ih =>
    have hturn : ∀ c', Turn p g entry none c c' →
        (Residency.solve p g entry c'.1 c'.2).Answers lapse (Solution.Kept G) t := by
      intro c' h
      have hmeasure := h.measure
      exact ih (c'.measure g) (by omega) (h.kept hq hc) rfl
    obtain ⟨stack, s⟩ := c
    cases stack with
    | nil =>
      rw [Residency.solve]
      exact Analysis.answers_pure hc _
    | cons id rest =>
      rw [Residency.solve]
      by_cases hs : s.entered id = true
      · rw [dif_pos hs]
        exact hturn _ (.known hs)
      rw [dif_neg hs]
      have hs' : s.entered id = false := Bool.eq_false_iff.2 hs
      by_cases hid : g.has id = false
      · rw [dif_pos hid]
        exact Analysis.answers_pure hc _
      rw [dif_neg hid]
      have hid' : g.has id = true := by simpa using hid
      cases hstart : startState? p g entry s id with
      | none => exact hturn _ (.postponed hs' hid' hstart)
      | some start =>
        have hstarts := hq.start hc hstart
        refine hstarts.steady.attempt_bind ⟨s, rfl⟩ fun result hstate => ?_
        cases result with
        | error e => exact Analysis.answers_pure hc _
        | ok state =>
          have hG := hstarts.value state hstate
          have hkept := hc.enter hG id
          have hwalk := hq.walk hG (g.accessesOf id)
          refine hwalk.steady.attempt_bind ⟨s.enter id state, rfl⟩ fun result hout => ?_
          cases result with
          | error e => exact Analysis.answers_pure hkept _
          | ok out =>
            have hreports := hq.reportStart id hG
            refine hreports.attempt_bind ⟨_, rfl⟩ fun result hreport => ?_
            cases result with
            | error e => exact Analysis.answers_pure (hkept.leave (hwalk.value out hout) id) _
            | ok => exact hturn _ (.settled hs' hid' hstart hstate hout hreport)

end

/-! ### Sessions with a solver -/

namespace Solver

/-- What a client calls a solver for. -/
inductive Call where
  | run
  | before (id : NodeId)
  | after (id : NodeId)
  | verdicts
deriving DecidableEq, Repr

/-- What a client is given. -/
inductive Reply where
  | table (states : StateTable)
  | state (s : Option State)
  | verdicts (summaries : List (NodeId × Summary))
deriving DecidableEq, Repr

/-- Answers a call. -/
def reply (p : Policy) (g : Graph) (a : Solver) : Call → Analysis (Solver × Except Fault Reply)
  | .run => do
    let (a, r) ← a.run p g
    return (a, r.map .table)
  | .before id => do
    let (a, r) ← a.stateBefore p g id
    return (a, r.map .state)
  | .after id => do
    let (a, r) ← a.stateAfter p g id
    return (a, r.map .state)
  | .verdicts => do
    let (a, r) ← a.verdicts p g
    return (a, r.map .verdicts)

/-- The answers to the calls of a client, one after another. -/
def session (p : Policy) (g : Graph) (a : Solver) (calls : List Call) :
    Analysis (List (Except Fault Reply)) :=
  Analysis.converse (reply p g) a calls

variable {p : Policy} {g : Graph} {G : State → Prop} {a : Solver} {t : Threshold}

/-- What the solver has found has the property. -/
def Kept (G : State → Prop) (a : Solver) : Prop :=
  a.solution.Kept G

/-- The report of the nodes without a state has no other effect. -/
theorem silent_reportSkipped (g : Graph) (entry : NodeId) (s : Solution) (t : Threshold) :
    (reportSkipped g entry s).Silent t := by
  rw [reportSkipped]
  split
  · exact Analysis.silent_pure _ t
  · exact Analysis.silent_note _ _ _ t

/-- A run answers the same, but for lapses. -/
theorem answers_run (hq : p.Quiet lapse t G) (ha : a.Kept G) :
    (a.run p g).Answers lapse (Kept G) t := by
  rw [run]
  split
  · exact Analysis.answers_pure ha _
  · have hsolve := hq.solve g a.entry (c := ([a.entry], a.solution)) ha
    refine hsolve.bind (fun s => ⟨_, rfl⟩) fun s r hs _ => ?_
    have hkept : ∀ finished, Kept G ⟨a.entry, s, finished⟩ := fun _ => hs
    cases r with
    | error e => exact Analysis.answers_pure (hkept _) _
    | ok =>
      have hreport : Analysis.Steady lapse (reportSkipped g a.entry s) t :=
        .inl (silent_reportSkipped g a.entry s t)
      refine hreport.attempt_bind ⟨_, rfl⟩ fun result _ => ?_
      cases result with
      | error e => exact Analysis.answers_pure (hkept _) _
      | ok => exact Analysis.answers_pure (hkept _) _

/-- A run leaves a solver, whether it fails or not. -/
theorem succeeds_run (p : Policy) (g : Graph) (a : Solver) (t : Journal) :
    (a.run p g).Succeeds t := by
  cases ha : a.finished with
  | true => exact ⟨_, by rw [run, ha]; rfl⟩
  | false =>
    obtain ⟨r, -, hr⟩ := exists_ends p g t ha
    exact ⟨r, hr⟩

/-- The table of a run holds the states that the solver has found. -/
theorem table_of_run {t : Journal} {a' : Solver} {table : StateTable}
    (h : (a.run p g t).result = .ok (a', .ok table)) : table = a'.solution.before := by
  cases ha : a.finished with
  | true =>
    rw [run, ha] at h
    obtain ⟨rfl, htable⟩ := Prod.mk.inj (Analysis.result_pure_eq_ok.1 h)
    exact (Except.ok.inj htable).symm
  | false =>
    obtain ⟨r, hends, hr⟩ := exists_ends p g t ha
    obtain rfl := Except.ok.inj (hr.symm.trans h)
    cases hends with
    | finished => rfl

/-- So does a question about a node. -/
theorem answers_ask (hq : p.Quiet lapse t G) (ha : a.Kept G) (id : NodeId)
    (f : Solution → Option State) :
    (a.ask p g id f).Answers lapse (Kept G) t := by
  rw [ask]
  split
  · exact Analysis.answers_pure ha _
  · exact (answers_run hq ha).map fun a _ => f a.solution

theorem steady_judgeNodes (hq : p.Quiet lapse t G) {table : StateTable}
    (htable : ∀ c ∈ table, G c.2) : (judgeNodes p g table).Steady lapse t := by
  refine Analysis.steady_collect fun c hc => ?_
  refine Analysis.Steady.bind (.inl (Analysis.silent_ofExcept _ t)) fun accesses _ => ?_
  exact (hq.judgeAll (htable c hc) accesses).steady.bind_pure _

/-- So do the verdicts. -/
theorem answers_verdicts (hq : p.Quiet lapse t G) (ha : a.Kept G) :
    (a.verdicts p g).Answers lapse (Kept G) t := by
  refine (answers_run hq ha).bind (fun a => ⟨a, rfl⟩) fun a' r ha' hrun => ?_
  cases r with
  | error e => exact Analysis.answers_pure ha' _
  | ok table =>
    have htable : ∀ c ∈ table, G c.2 := by
      rw [table_of_run hrun]
      exact ha'.before
    refine (steady_judgeNodes hq htable).attempt_bind ⟨a', rfl⟩ fun result _ => ?_
    exact Analysis.answers_pure ha' _

/-- So does every call. -/
theorem answers_reply (hq : p.Quiet lapse t G) (ha : a.Kept G) (c : Call) :
    (a.reply p g c).Answers lapse (Kept G) t := by
  cases c with
  | run => exact (answers_run hq ha).map fun _ => Reply.table
  | before id => exact (answers_ask hq ha id _).map fun _ => Reply.state
  | after id => exact (answers_ask hq ha id _).map fun _ => Reply.state
  | verdicts => exact (answers_verdicts hq ha).map fun _ => Reply.verdicts

theorem succeeds_ask (p : Policy) (g : Graph) (a : Solver) (id : NodeId)
    (f : Solution → Option State) (t : Journal) : (a.ask p g id f).Succeeds t := by
  rw [ask]
  split
  · exact Analysis.succeeds_pure _ t
  · exact (succeeds_run p g a t).bind fun _ _ => Analysis.succeeds_pure _ t

theorem succeeds_verdicts (p : Policy) (g : Graph) (a : Solver) (t : Journal) :
    (a.verdicts p g).Succeeds t := by
  refine (succeeds_run p g a t).bind fun c _ => ?_
  obtain ⟨a', r⟩ := c
  cases r with
  | error e => exact Analysis.succeeds_pure _ t
  | ok table => exact ⟨_, rfl⟩

/-- A call has an answer, whether it fails or not. -/
theorem succeeds_reply (p : Policy) (g : Graph) (t : Journal) (a : Solver) (c : Call) :
    (a.reply p g c).Succeeds t := by
  cases c with
  | run => exact (succeeds_run p g a t).bind fun _ _ => Analysis.succeeds_pure _ t
  | before id => exact (succeeds_ask p g a id _ t).bind fun _ _ => Analysis.succeeds_pure _ t
  | after id => exact (succeeds_ask p g a id _ t).bind fun _ _ => Analysis.succeeds_pure _ t
  | verdicts => exact (succeeds_verdicts p g a t).bind fun _ _ => Analysis.succeeds_pure _ t

end Solver

/-! ### Lapses -/

namespace Scratchpad

variable {p : Scratchpad} {a : Int} {s s' : State} {t : Threshold}

/-- Where everything is kept, an access to a function that fits writes out its size with MUST. -/
theorem isWritable_of_access (ht : t.journal.admits .debug = true)
    (hfits : p.bytesOf a ≤ p.capacity) (h : (p.access s a t).result = .ok s') :
    isWritable (p.bytesOf a) = true := by
  obtain ⟨_, -, h⟩ := Analysis.result_bind_eq_ok.1 h
  obtain ⟨size, hsize, h⟩ := Analysis.result_bind_eq_ok.1 h
  obtain ⟨rfl, -⟩ := room_eq_ok hsize
  rw [if_neg (Int.not_lt.2 hfits)] at h
  obtain ⟨must, hmust, -⟩ := Analysis.result_bind_eq_ok.1 h
  obtain ⟨kept, hkept, hmust⟩ := Analysis.result_bind_eq_ok.1 hmust
  obtain ⟨rfl, -⟩ := survivors_eq_ok hkept
  obtain ⟨_, hdetail, -⟩ := Analysis.result_bind_eq_ok.1 hmust
  obtain ⟨_, hreport, -⟩ := (Analysis.succeeds_inDetail_iff.1 ⟨_, hdetail⟩ ht).of_bind
  obtain ⟨text, htext, -⟩ := Analysis.result_bind_eq_ok.1 hreport
  have hwords := (Policy.succeeds_setText_iff (p := .scratchpad p)).1 ⟨text, htext⟩ ⟨a, 0⟩
    (EntrySet.mem_reloaded.2 (.inl rfl))
  have hrange : (Entry.rangeText (p.bytesOf a) ⟨a, 0⟩).Written := hwords.2
  simp only [Entry.rangeText, Text.Phrase.written_append, Text.Phrase.written_decimal,
    Text.Phrase.written_ofString, true_and, and_true] at hrange
  exact hrange.2

end Scratchpad

namespace Policy

/-- **The journal has no influence.**  Sessions with a policy, and sessions with a solver, have the
same answers and count the same usage whatever records are kept, unless everything is kept and
the capacity of the memory cannot be written.  Then the first answer that differs stops at such a
number.  This does happen: an access to a function that fits into a scratchpad, but whose size
cannot be written, lapses where everything is kept and it would succeed without records. -/
theorem sessions_agree (p : Policy) (t : Threshold) :
    (∀ requests, (p.session requests).Agrees
      (t.journal.admits .debug = true ∧ ¬p.Written) t) ∧
    (∀ g entry a, Solver.make g entry = .ok a → ∀ calls,
      (a.session p g calls).Agrees (t.journal.admits .debug = true ∧ ¬p.Written) t) ∧
    ∀ q a s s', p = scratchpad q → q.bytesOf a ≤ q.capacity → isWritable (q.bytesOf a) = false →
      t.journal.admits .debug = true → (p.access s a none).result = .ok s' →
        (p.access s a t).result = .error .unwritableNumber := by
  obtain ⟨G, hq⟩ : ∃ G, p.Quiet (t.journal.admits .debug = true ∧ ¬p.Written) t G :=
    exists_quiet fun hl ht => not_not.1 fun hp => hl ⟨ht, hp⟩
  refine ⟨fun requests => ?_, fun g entry a hmake calls => ?_, ?_⟩
  · apply Analysis.agrees_converse p.succeeds_serve (fun given hgiven r => hq.serve hgiven r)
    exact fun s hs => nomatch hs
  · have ha : a.Kept G := by
      obtain rfl := Solver.eq_of_make hmake
      exact .empty G
    exact Analysis.agrees_converse (Solver.succeeds_reply p g)
      (fun a ha c => Solver.answers_reply hq ha c) ha calls
  · rintro q a s s' rfl hfits hw ht hnone
    have hsteady : (q.access s a).Steady True t :=
      Scratchpad.steady_access fun _ h => absurd trivial h
    refine (hsteady.resolve_left fun hsilent => ?_).2
    have hwritable := Scratchpad.isWritable_of_access ht hfits (hsilent.result.trans hnone)
    rw [hw] at hwritable
    cases hwritable

end Policy

/-- A scratchpad that a function of the given size fills. -/
def Scratchpad.filled (size : Int) (h : 0 < size) : Scratchpad where
  geometry := ⟨size, 1, false, .lru, h, Int.one_pos, Int.fmod_one size⟩
  functions := ⟨1, [⟨4, size, none, h⟩], Int.one_pos, List.nodup_singleton 4⟩

theorem Scratchpad.bytesOf_filled (size : Int) (h : 0 < size) :
    (filled size h).bytesOf 4 = size := by
  show roundUp (roundUp size 1) 1 = size
  simp [roundUp]

theorem Scratchpad.access_filled (size : Int) (h : 0 < size) :
    ((filled size h).access (.blank size) 4 none).result =
      .ok ⟨[⟨4, 0⟩], [⟨4, 0⟩], size⟩ := by
  have hbytes := bytesOf_filled size h
  have hroom := room_of_pos (p := filled size h) (a := 4) (by rw [hbytes]; exact h) none
  rw [hbytes] at hroom
  have hfits : ¬size > (filled size h).capacity := Int.lt_irrefl size
  have hcapacity : (State.blank size).capacityOr size = size := State.capacityOr_self rfl
  rw [access, Analysis.result_note_bind (by rfl), Analysis.result_bind_of_ok hroom, if_neg hfits]
  show Except.ok (State.mk _ _ ((State.blank size).capacityOr size)) = _
  rw [hcapacity]
  rfl

/-- A number with too many digits cannot be written. -/
theorem Text.isWritable_eq_false {n : Int} (h : ((10 ^ maxDecimalDigits : Nat) : Int) ≤ n) :
    isWritable n = false := by
  rw [isWritable, decide_eq_false_iff_not, Nat.length_toDigits_le_iff (by decide) (by decide)]
  omega

-- With everything on record: requests that fail among others, a solver that fails and runs
-- again, and a function whose size cannot be written.
theorem Policy.sessions_agree_strict :
    let p : Policy := .scratchpad .strict
    let requests : List Request := [.blank, .walk 0 [1, 2, 3], .walk 0 [3, 2, 1], .join [1, 2],
      .access 3 9, .judge 3 [2, 4], .join [0], .judge 3 [2, 1, 3]]
    let calls : List Solver.Call := [.run, .verdicts, .after (.number 2)]
    let t : Threshold := some .debug
    let size : Int := (10 ^ Text.maxDecimalDigits : Nat)
    let q : Policy := .scratchpad (.filled size (Int.natCast_pos.2 (by positivity)))
    ((p.session requests t).result = (p.session requests none).result ∧
      (p.session requests t).usage = (p.session requests none).usage) ∧
    (∃ a, Solver.make .strayCall (.number 0) = .ok a ∧
      (a.session p .strayCall calls t).result = (a.session p .strayCall calls none).result) ∧
    (q.access (.blank size) 4 none).result = .ok ⟨[⟨4, 0⟩], [⟨4, 0⟩], size⟩ ∧
    (q.access (.blank size) 4 t).result = .error .unwritableNumber := by
  intro p requests calls t size q
  obtain ⟨hrequests, hcalls, -⟩ := sessions_agree p t
  have hp : p.Written := ⟨by decide, by decide⟩
  have hpos : 0 < size := Int.natCast_pos.2 (by positivity)
  have hloaded := Scratchpad.access_filled size hpos
  have hbytes := Scratchpad.bytesOf_filled size hpos
  refine ⟨?_, ⟨_, rfl, ?_⟩, hloaded, ?_⟩
  · have hsilent := (hrequests requests).resolve_right fun h => h.1.2 hp
    exact ⟨hsilent.result, hsilent.usage⟩
  · have hsilent := (hcalls .strayCall (.number 0) _ rfl calls).resolve_right fun h => h.1.2 hp
    exact hsilent.result
  · obtain ⟨-, -, hlapses⟩ := sessions_agree q t
    refine hlapses _ 4 _ _ rfl hbytes.le ?_ rfl hloaded
    rw [hbytes]
    exact Text.isWritable_eq_false (Int.le_refl _)

end Residency
