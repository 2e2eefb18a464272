/-
Residency/Proofs/OutsizedFunctions.lean

Functions that are larger than the scratchpad.  Where they are ignored they leave no trace:
an access to one can be left out of a derivation or of a node of a flow graph, and nothing
changes (`Scratchpad.outsized_invisible`).  They are in no set of any derivable state, so every
access to one is judged a sure miss.

An access that changes nothing can be left out for any policy.  `Policy.Neglects` says that
accesses to certain addresses change nothing where they succeed, and `Policy.Passes` that they
succeed besides.  The first is enough to take over what succeeds (`Derivation.state_skipping`,
`Turn.skipping`).  The second is needed for what fails: a report about an ignored function may
hold a number that cannot be written, and then the accesses left out take the fault along.
-/
import Residency.Proofs.Judging
import Residency.Proofs.Parallel

namespace Residency

variable {p : Policy} {g : Graph} {entry : NodeId} {t : Journal} {skip : Int → Bool}

/-! ### Leaving accesses out -/

namespace Derivation

mutual

/-- A derivation without the accesses to be skipped. -/
def skipping (skip : Int → Bool) : Derivation → Derivation
  | blank => blank
  | access d a => if skip a then d.skipping skip else access (d.skipping skip) a
  | join d e rest => join (d.skipping skip) (e.skipping skip) (skippingOfAll skip rest)

/-- Several derivations without the accesses to be skipped. -/
def skippingOfAll (skip : Int → Bool) : List Derivation → List Derivation
  | [] => []
  | d :: rest => d.skipping skip :: skippingOfAll skip rest

end

end Derivation

namespace Graph

/-- A graph without the accesses to be skipped. -/
def skipping (g : Graph) (skip : Int → Bool) : Graph :=
  { g with nodes := g.nodes.map fun n => { n with accesses := n.accesses.filter (!skip ·) } }

@[simp] theorem has_skipping (g : Graph) (skip : Int → Bool) (id : NodeId) :
    (g.skipping skip).has id = g.has id := by
  simp [has, skipping, Function.comp_def]

@[simp] theorem size_skipping (g : Graph) (skip : Int → Bool) :
    (g.skipping skip).size = g.size := by
  simp [size, skipping]

/-- The accesses of a node are those that are not skipped. -/
@[simp] theorem accessesOf_skipping (g : Graph) (skip : Int → Bool) (id : NodeId) :
    (g.skipping skip).accessesOf id = (g.accessesOf id).filter (!skip ·) := by
  simp only [accessesOf, skipping, List.find?_map, Function.comp_def]
  cases g.nodes.find? fun n => n.id == id <;> rfl

end Graph

/-! ### Accesses that change nothing -/

namespace Policy

/-- Where an access to one of the addresses succeeds, it changes nothing. -/
def Neglects (p : Policy) (skip : Int → Bool) : Prop :=
  ∀ t s s' a, skip a = true → (p.access s a t).result = .ok s' → s' = s

/-- An access to one of the addresses succeeds and changes nothing. -/
def Passes (p : Policy) (t : Journal) (skip : Int → Bool) : Prop :=
  ∀ s a, skip a = true → (p.access s a t).result = .ok s

/-- A walk that succeeds ends in the same state without the neglected accesses. -/
theorem walk_skipping (hp : p.Neglects skip) {s s' : State} {addresses : List Int}
    (h : (p.walk s addresses t).result = .ok s') :
    (p.walk s (addresses.filter (!skip ·)) t).result = .ok s' := by
  induction addresses generalizing s with
  | nil => exact h
  | cons a addresses ih =>
    obtain ⟨u, hu, hwalk⟩ := Analysis.result_follow_cons.1 h
    cases ha : skip a with
    | true =>
      obtain rfl := hp t s u a ha hu
      rw [List.filter_cons_of_neg (by simp [ha])]
      exact ih hwalk
    | false =>
      rw [List.filter_cons_of_pos (by simp [ha])]
      exact Analysis.result_follow_cons.2 ⟨u, hu, ih hwalk⟩

/-- If the accesses pass, a walk ends alike with them and without them, also where it fails. -/
theorem result_walk_skipping (hp : p.Passes t skip) (s : State) (addresses : List Int) :
    (p.walk s (addresses.filter (!skip ·)) t).result = (p.walk s addresses t).result := by
  induction addresses generalizing s with
  | nil => rfl
  | cons a addresses ih =>
    show _ = (Analysis.follow p.access s (a :: addresses) t).result
    rw [Analysis.follow]
    cases ha : skip a with
    | true =>
      rw [List.filter_cons_of_neg (by simp [ha]), Analysis.result_bind_of_ok (hp s a ha)]
      exact ih s
    | false =>
      rw [List.filter_cons_of_pos (by simp [ha])]
      show (Analysis.follow p.access s (a :: addresses.filter (!skip ·)) t).result = _
      rw [Analysis.follow, Analysis.result_bind, Analysis.result_bind]
      congr 1
      funext u
      exact ih u

end Policy

/-! ### Derivations -/

namespace Derivation

mutual

/-- A derivation that succeeds leads to the same state without the accesses to be skipped. -/
theorem state_skipping (hp : p.Neglects skip) : ∀ (d : Derivation) {s : State},
    (d.state p t).result = .ok s → ((d.skipping skip).state p t).result = .ok s
  | blank, s, h => by
    rw [skipping]
    exact h
  | access d a, s', h => by
    obtain ⟨s, hs, h⟩ := state_access.1 h
    have hskipped := state_skipping hp d hs
    cases ha : skip a with
    | true =>
      obtain rfl := hp t s s' a ha h
      rw [skipping, if_pos ha]
      exact hskipped
    | false =>
      rw [skipping, if_neg (by simp [ha])]
      exact state_access.2 ⟨s, hskipped, h⟩
  | join d e rest, s', h => by
    obtain ⟨ss, hss, h⟩ := state_join.1 h
    obtain ⟨s, us, hs, hus, rfl⟩ := List.forall₂_cons_left_iff.1 hss
    obtain ⟨u, rs, hu, hrs, rfl⟩ := List.forall₂_cons_left_iff.1 hus
    rw [skipping]
    exact state_join.2 ⟨_, .cons (state_skipping hp d hs) (.cons (state_skipping hp e hu)
      (states_skipping hp rest hrs)), h⟩

theorem states_skipping (hp : p.Neglects skip) : ∀ (ds : List Derivation) {ss : List State},
    List.Forall₂ (fun d s => (d.state p t).result = .ok s) ds ss →
      List.Forall₂ (fun d s => (d.state p t).result = .ok s) (skippingOfAll skip ds) ss
  | [], ss, h => by
    rw [skippingOfAll]
    exact h
  | d :: ds, ss, h => by
    obtain ⟨s, us, hs, hus, rfl⟩ := List.forall₂_cons_left_iff.1 h
    rw [skippingOfAll]
    exact .cons (state_skipping hp d hs) (states_skipping hp ds hus)

end

end Derivation

/-! ### Runs -/

/-- A turn of the solver is a turn on the graph without the neglected accesses. -/
theorem Turn.skipping (hp : p.Neglects skip) {c c' : Stage} (h : Turn p g entry t c c') :
    Turn p (g.skipping skip) entry t c c' := by
  cases h with
  | known hs => exact .known hs
  | postponed hs hid hstart =>
    exact .postponed hs ((g.has_skipping skip _).trans hid) hstart
  | settled hs hid hstart hstate hout hreport =>
    refine .settled hs ((g.has_skipping skip _).trans hid) hstart hstate ?_ hreport
    rw [Graph.accessesOf_skipping]
    exact Policy.walk_skipping hp hout

/-- So is a run of turns. -/
theorem turns_skipping (hp : p.Neglects skip) {c c' : Stage}
    (h : Relation.ReflTransGen (Turn p g entry t) c c') :
    Relation.ReflTransGen (Turn p (g.skipping skip) entry t) c c' := by
  induction h with
  | refl => exact .refl
  | tail _ hturn ih => exact ih.tail (hturn.skipping hp)

/-- Where the accesses pass, the loop halts alike on the graph without them. -/
theorem Halts.skipping (hp : p.Passes t skip) {c : Stage} {r : Solution × Except Fault Unit}
    (h : Halts p g entry t c r) : Halts p (g.skipping skip) entry t c r := by
  have hwalk : ∀ id state, (p.walk state ((g.skipping skip).accessesOf id) t).result =
      (p.walk state (g.accessesOf id) t).result := by
    intro id state
    rw [Graph.accessesOf_skipping, Policy.result_walk_skipping hp]
  cases h with
  | done => exact .done
  | unknown hs hid => exact .unknown hs ((g.has_skipping skip _).trans hid)
  | start hs hid hstart he => exact .start hs ((g.has_skipping skip _).trans hid) hstart he
  | walk hs hid hstart hstate he =>
    exact .walk hs ((g.has_skipping skip _).trans hid) hstart hstate ((hwalk _ _).trans he)
  | report hs hid hstart hstate hout he =>
    exact .report hs ((g.has_skipping skip _).trans hid) hstart hstate ((hwalk _ _).trans hout) he

namespace Solver

/-- The nodes without a state are reported alike. -/
theorem reportSkipped_skipping (g : Graph) (skip : Int → Bool) (entry : NodeId) (s : Solution) :
    reportSkipped (g.skipping skip) entry s = reportSkipped g entry s := by
  rw [reportSkipped, reportSkipped, Graph.size_skipping]

theorem make_skipping (g : Graph) (skip : Int → Bool) (entry : NodeId) :
    make (g.skipping skip) entry = make g entry := by
  rw [make, make, Graph.has_skipping]

/-- A run that succeeds finds the same without the accesses to be skipped. -/
theorem run_skipping (hp : p.Neglects skip) {a a' : Solver} {table : StateTable}
    (h : (a.run p g t).result = .ok (a', .ok table)) :
    (a.run p (g.skipping skip) t).result = .ok (a', .ok table) := by
  cases ha : a.finished with
  | true =>
    rw [run, if_pos ha] at h ⊢
    exact h
  | false =>
    obtain ⟨r, hends, hr⟩ := exists_ends p g t ha
    obtain rfl := Except.ok.inj (hr.symm.trans h)
    cases hends with
    | finished hturns hreport =>
      refine Ends.result_run (.finished (turns_skipping hp hturns) ?_) ha
      rw [reportSkipped_skipping]
      exact hreport

/-- If the accesses to be skipped cannot fail, a run returns the same without them, also where it
fails for another reason. -/
theorem result_run_skipping (hp : p.Neglects skip) (hp' : p.Passes t skip) (a : Solver) :
    (a.run p (g.skipping skip) t).result = (a.run p g t).result := by
  cases ha : a.finished with
  | true =>
    rw [run, run, if_pos ha, if_pos ha]
  | false =>
    obtain ⟨r, hends, hr⟩ := exists_ends p g t ha
    rw [hr]
    refine Ends.result_run ?_ ha
    cases hends with
    | failed hturns hhalts =>
      exact .failed (turns_skipping hp hturns) (hhalts.skipping hp')
    | unreported hturns he =>
      refine .unreported (turns_skipping hp hturns) ?_
      rw [reportSkipped_skipping]
      exact he
    | finished hturns hreport =>
      refine .finished (turns_skipping hp hturns) ?_
      rw [reportSkipped_skipping]
      exact hreport

end Solver

/-! ### Scratchpads -/

namespace Scratchpad

variable {q : Scratchpad} {a : Int}

/-- Is the function larger than the scratchpad? -/
def isOutsized (q : Scratchpad) (a : Int) : Bool :=
  q.capacity < q.bytesOf a

/-- A function is outsized if it has more bytes than the scratchpad. -/
theorem isOutsized_iff : q.isOutsized a = true ↔ q.capacity < q.bytesOf a := by
  rw [isOutsized, decide_eq_true_eq]

/-- An access to an outsized function leaves the state as it is, if it succeeds. -/
theorem neglects_outsized (q : Scratchpad) : (Policy.scratchpad q).Neglects q.isOutsized := by
  intro t s s' a ha h
  obtain ⟨-, ⟨-, hsame⟩ | ⟨hfits, -⟩⟩ := access_cases h
  · exact hsame
  · rw [isOutsized_iff] at ha
    omega

/-- Where outsized functions are ignored, an access to one succeeds and leaves the state as it is.
-/
theorem passes_outsized (hq : q.geometry.ignoreOutsized = true) (t : Threshold) :
    (Policy.scratchpad q).Passes t q.isOutsized := by
  intro s a ha
  have hlarge := isOutsized_iff.1 ha
  have hcapacity : 0 < q.capacity := q.geometry.capacity_pos
  have hpos : 0 < q.bytesOf a := by omega
  show (q.access s a t).result = .ok s
  rw [access, Analysis.result_note_bind (by rfl),
    Analysis.result_bind_of_ok (room_of_pos hpos t), if_pos hlarge, outsized, if_pos hq,
    Analysis.result_bind_of_ok (Analysis.result_note_journal _ _ _ t)]
  rfl

/-- No derivable state holds a function that is larger than the scratchpad. -/
theorem not_mem_of_outsized {s : State} (hs : (Policy.scratchpad q).Derivable s)
    (ha : q.isOutsized a = true) (kind : SetKind) : a ∉ (s.entries kind).addresses := by
  obtain ⟨d, t, hd⟩ := hs
  intro hmem
  obtain ⟨e, he, rfl⟩ := EntrySet.mem_addresses.1 hmem
  -- Every entry lies inside the scratchpad, and this one would reach beyond its end.
  obtain ⟨hage, -, hend⟩ := (d.tracked (q.tracks_packed t) hd).tidy.inside kind e he
  rw [isOutsized_iff] at ha
  omega

/-- Where outsized functions are ignored, no registered function is refused. -/
theorem refusal?_of_registered (hq : q.geometry.ignoreOutsized = true)
    (ha : (q.functions.function? a).isSome = true) : q.refusal? a = none := by
  obtain ⟨f, hf⟩ := Option.isSome_iff_exists.1 ha
  simp [refusal?, hf, hq]

/-- **Ignored functions are invisible.**  Take a scratchpad that ignores functions larger than
itself.  A derivation that succeeds leads to the same state without the accesses to them, and
a derivation over registered functions does succeed.  No derivable state holds such a
function in either set, and an access to one is judged a sure miss.  A run of a solver that
succeeds on a graph leaves the same solver, with the same states in front of the nodes and
behind them, on the graph without these accesses; and the two runs return the same even if they
fail. -/
theorem outsized_invisible (q : Scratchpad) (hq : q.geometry.ignoreOutsized = true) :
    (∀ (d : Derivation) t s, (d.state (.scratchpad q) t).result = .ok s →
      ((d.skipping q.isOutsized).state (.scratchpad q) t).result = .ok s) ∧
    (∀ (d : Derivation) (t : Threshold), d.Over (fun a => (q.functions.function? a).isSome = true) →
      t.Bears q.capacity → ∃ s, (d.state (.scratchpad q) t).result = .ok s) ∧
    (∀ s a, (Policy.scratchpad q).Derivable s → q.isOutsized a = true →
      (∀ kind, a ∉ (s.entries kind).addresses) ∧ s.verdict a = .alwaysMiss) ∧
    ∀ g : Graph, (∀ entry, Solver.make (g.skipping q.isOutsized) entry = Solver.make g entry) ∧
      ∀ a : Solver,
        (∀ (t : Journal) a' table, (a.run (.scratchpad q) g t).result = .ok (a', .ok table) →
          (a.run (.scratchpad q) (g.skipping q.isOutsized) t).result = .ok (a', .ok table)) ∧
        ∀ t : Threshold, (a.run (.scratchpad q) (g.skipping q.isOutsized) t).result =
          (a.run (.scratchpad q) g t).result := by
  have hneglects := q.neglects_outsized
  refine ⟨fun d t s hd => d.state_skipping hneglects hd, fun d t hd ht => ?_, fun s a hs ha => ?_,
    fun g => ⟨Solver.make_skipping g _, fun a => ⟨fun t a' table hrun => ?_, fun t => ?_⟩⟩⟩
  · apply Derivation.state_succeeds (sustains_packed ht) (q.tracks_packed t)
    exact fun history hh a ha => refusal?_of_registered hq (hd history hh a ha)
  · have habsent := not_mem_of_outsized hs ha
    exact ⟨habsent, State.verdict_eq_alwaysMiss.2 ⟨habsent .must, habsent .may⟩⟩
  · exact Solver.run_skipping hneglects hrun
  · exact Solver.result_run_skipping hneglects (passes_outsized hq t) a

end Scratchpad

/-- A scratchpad that ignores the function that is too large for it. -/
def Scratchpad.lenient : Scratchpad :=
  { Scratchpad.strict with geometry := Scratchpad.mixedSizes.geometry }

/-- A diamond with a function that is too large in every node; node 1 accesses nothing else. -/
def Graph.bypass : Graph where
  nodes := [⟨.number 0, [1, 4]⟩, ⟨.number 1, [4]⟩, ⟨.number 2, [4, 2]⟩, ⟨.number 3, [1, 4, 3]⟩]
  edges := [⟨.number 0, .number 1, .forward⟩, ⟨.number 0, .number 2, .forward⟩,
    ⟨.number 1, .number 3, .forward⟩, ⟨.number 2, .number 3, .forward⟩]

theorem Scratchpad.outsized_invisible_lenient :
    let d : Derivation := .access (.access (.join (.access (.access .blank 1) 4)
      (.access (.access (.access .blank 4) 1) 2) []) 4) 3
    let s : State := ⟨[⟨3, 0⟩, ⟨1, 16⟩], [⟨3, 0⟩, ⟨1, 12⟩, ⟨2, 12⟩], 32⟩
    lenient.geometry.ignoreOutsized = true ∧ lenient.isOutsized 4 = true ∧
    (d.state (.scratchpad lenient) none).result = .ok s ∧
    ((d.skipping lenient.isOutsized).state (.scratchpad lenient) none).result = .ok s ∧
    s.verdict 4 = .alwaysMiss ∧
    ∃ a a' table, Solver.make .bypass (.number 0) = .ok a ∧
      (a.run (.scratchpad lenient) .bypass none).result = .ok (a', .ok table) ∧
      (a.run (.scratchpad lenient) (Graph.bypass.skipping lenient.isOutsized) none).result =
        .ok (a', .ok table) ∧
      table.map Prod.fst = [.number 0, .number 2, .number 1, .number 3] ∧
      (Graph.bypass.skipping lenient.isOutsized).accessesOf (.number 1) = [] := by
  intro d s
  have hignore : lenient.geometry.ignoreOutsized = true := rfl
  have hlarge : lenient.isOutsized 4 = true := by rfl
  have hd : (d.state (.scratchpad lenient) none).result = .ok s := by cbv
  obtain ⟨hskip, -, hstates, hruns⟩ := outsized_invisible lenient hignore
  refine ⟨hignore, hlarge, hd, hskip d none s hd, (hstates s 4 ⟨d, none, hd⟩ hlarge).2, ?_⟩
  obtain ⟨-, hrun⟩ := hruns Graph.bypass
  refine ⟨_, _, _, rfl, by cbv, (hrun _).1 none _ _ (by cbv), rfl, by rfl⟩

end Residency
