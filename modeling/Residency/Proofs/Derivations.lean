/-
Residency/Proofs/Derivations.lean

Invariants of derivable states.  A property of states that speaks about the histories which
a state merges is kept by all derivations as soon as it holds of the blank state and is
kept by single accesses and by joins of two (`Policy.Tracks`, `Derivation.tracked`).  The
fold inside a join of many states and the nesting of derivations are dealt with here once.

`state_access`, `state_join` and `states_iff` say when carrying out a derivation succeeds,
and `mem_histories_join` says which histories a join merges.
-/
import Mathlib.Data.List.Forall2
import Mathlib.Data.Set.Image
import Residency.Derivation
import Residency.Proofs.Results

namespace Residency

variable {p : Policy} {t : Journal}

/-! ### Policies -/

namespace Policy

theorem result_initial (p : Policy) (t : Journal) :
    (p.initial t).result = .ok (State.blank p.capacity) := rfl

/-- A join takes two states or more and joins them from the left. -/
theorem result_join {ss : List State} {s' : State} :
    (p.join ss t).result = .ok s' ↔ ∃ s u rest, ss = s :: u :: rest ∧
      (Analysis.follow p.joinTwo s (u :: rest) t).result = .ok s' := by
  have hjoin : ∀ s u rest, (p.join (s :: u :: rest) t).result =
      (Analysis.follow p.joinTwo s (u :: rest) t).result := by
    intro s u rest
    have hend : ∀ x : Analysis State, ((do
        let joined ← x
        Analysis.count joined.usage
        return joined) t).result = (x t).result := by
      intro x
      rw [Analysis.result_bind]
      cases (x t).result <;> rfl
    rw [join]
    split
    · exact (Analysis.result_note_bind (by rfl) _).trans (hend _)
    · exact hend _
  constructor
  · intro h
    match ss, h with
    | [], h => exact absurd h (Analysis.result_fail_ne_ok t)
    | [s], h => exact absurd h (Analysis.result_fail_ne_ok t)
    | s :: u :: rest, h => exact ⟨s, u, rest, rfl, (hjoin s u rest).symm.trans h⟩
  · rintro ⟨s, u, rest, rfl, h⟩
    exact (hjoin s u rest).trans h

/-- The records of a join do not change what is joined. -/
theorem joinTwo_mergeTwo {s u s' : State} (h : (p.joinTwo s u t).result = .ok s') :
    (p.mergeTwo s u t).result = .ok s' := by
  obtain ⟨_, -, h⟩ := Analysis.result_bind_eq_ok.1 h
  exact h

/-- A property of states that follows the histories they merge. -/
structure Tracks (p : Policy) (t : Journal) (R : Set (List Int) → State → Prop) : Prop where
  blank : R {[]} (State.blank p.capacity)
  access {H : Set (List Int)} {s s' : State} {a : Int} (hs : R H s)
    (h : (p.access s a t).result = .ok s') : R ((· ++ [a]) '' H) s'
  join {H K : Set (List Int)} {s u s' : State} (hs : R H s) (hu : R K u)
    (h : (p.joinTwo s u t).result = .ok s') : R (H ∪ K) s'

/-- A property that accesses carry along is carried along a sequence of them. -/
theorem Tracks.walk {R : Set (List Int) → State → Prop} (hR : p.Tracks t R)
    {H : Set (List Int)} {s s' : State} {addresses : List Int} (hs : R H s)
    (h : (p.walk s addresses t).result = .ok s') : R ((· ++ addresses) '' H) s' := by
  induction addresses generalizing H s with
  | nil =>
    obtain rfl := Analysis.result_follow_nil.1 h
    simpa using hs
  | cons a addresses ih =>
    obtain ⟨u, hu, h⟩ := Analysis.result_follow_cons.1 h
    have hwalk := ih (hR.access hs hu) h
    rw [Set.image_image] at hwalk
    simpa using hwalk

end Policy

namespace Derivation

/-! ### Histories -/

/-- An access extends every history. -/
theorem mem_histories_access {d : Derivation} {a : Int} {h : List Int} :
    h ∈ (access d a).histories ↔ ∃ h' ∈ d.histories, h' ++ [a] = h := by
  rw [histories, List.mem_map]

theorem mem_historiesOfAll {ds : List Derivation} {h : List Int} :
    h ∈ historiesOfAll ds ↔ ∃ d ∈ ds, h ∈ d.histories := by
  induction ds with
  | nil => simp [historiesOfAll]
  | cons d ds ih => rw [historiesOfAll, List.mem_append, ih, List.exists_mem_cons_iff]

/-- A join has the histories of all its parts. -/
theorem mem_histories_join {d e : Derivation} {rest : List Derivation} {h : List Int} :
    h ∈ (join d e rest).histories ↔ ∃ x ∈ d :: e :: rest, h ∈ x.histories := by
  rw [histories, List.append_assoc, List.mem_append, List.mem_append, mem_historiesOfAll,
    List.exists_mem_cons_iff, List.exists_mem_cons_iff]

/-! ### States -/

theorem state_blank {s : State} :
    (blank.state p t).result = .ok s ↔ s = State.blank p.capacity := by
  rw [state, Policy.result_initial, Except.ok.injEq, eq_comm]

/-- The state of an access comes from the state before it. -/
theorem state_access {d : Derivation} {a : Int} {s' : State} :
    ((access d a).state p t).result = .ok s' ↔
      ∃ s, (d.state p t).result = .ok s ∧ (p.access s a t).result = .ok s' := by
  rw [state, Analysis.result_bind_eq_ok]

/-- Deriving several states is deriving each of them. -/
theorem states_iff {ds : List Derivation} {ss : List State} :
    (statesOfAll p ds t).result = .ok ss ↔
      List.Forall₂ (fun d s => (d.state p t).result = .ok s) ds ss := by
  induction ds generalizing ss with
  | nil =>
    rw [statesOfAll, Analysis.result_pure_eq_ok, List.forall₂_nil_left_iff, eq_comm]
  | cons d ds ih =>
    rw [statesOfAll, Analysis.result_bind_eq_ok, List.forall₂_cons_left_iff]
    constructor
    · rintro ⟨s, hs, h⟩
      obtain ⟨ss', hss, h⟩ := Analysis.result_bind_eq_ok.1 h
      exact ⟨s, ss', hs, ih.1 hss, (Analysis.result_pure_eq_ok.1 h).symm⟩
    · rintro ⟨s, ss', hs, hss, rfl⟩
      exact ⟨s, hs, Analysis.result_bind_eq_ok.2 ⟨ss', ih.2 hss, rfl⟩⟩

/-- The state of a join comes from the states of its parts. -/
theorem state_join {d e : Derivation} {rest : List Derivation} {s' : State} :
    ((join d e rest).state p t).result = .ok s' ↔
      ∃ ss, List.Forall₂ (fun d s => (d.state p t).result = .ok s) (d :: e :: rest) ss ∧
        (p.join ss t).result = .ok s' := by
  rw [state, Analysis.result_bind_eq_ok]
  constructor
  · rintro ⟨s, hs, h⟩
    obtain ⟨u, hu, h⟩ := Analysis.result_bind_eq_ok.1 h
    obtain ⟨ss, hss, h⟩ := Analysis.result_bind_eq_ok.1 h
    exact ⟨s :: u :: ss, .cons hs (.cons hu (states_iff.1 hss)), h⟩
  · rintro ⟨ss, hss, h⟩
    obtain ⟨s, us, hs, hus, rfl⟩ := List.forall₂_cons_left_iff.1 hss
    obtain ⟨u, rs, hu, hrs, rfl⟩ := List.forall₂_cons_left_iff.1 hus
    exact ⟨_, hs, Analysis.result_bind_eq_ok.2 ⟨_, hu,
      Analysis.result_bind_eq_ok.2 ⟨_, states_iff.2 hrs, h⟩⟩⟩

/-! ### Invariants -/

section

variable {R : Set (List Int) → State → Prop}

/-- Joining the states of derivations one after the other onto a state. -/
theorem tracked_follow (hR : p.Tracks t R) {ds : List Derivation} {ss : List State}
    (hss : List.Forall₂ (fun d s => R {h | h ∈ d.histories} s) ds ss) {H : Set (List Int)}
    {s s' : State} (hs : R H s) (h : (Analysis.follow p.joinTwo s ss t).result = .ok s') :
    R (H ∪ {h | ∃ d ∈ ds, h ∈ d.histories}) s' := by
  induction hss generalizing H s with
  | nil =>
    obtain rfl := Analysis.result_follow_nil.1 h
    simpa using hs
  | @cons d u ds us hu _ ih =>
    obtain ⟨joined, hjoined, h⟩ := Analysis.result_follow_cons.1 h
    have hj := ih (hR.join hs hu hjoined) h
    have hset : H ∪ {h | h ∈ d.histories} ∪ {h | ∃ d ∈ ds, h ∈ d.histories} =
        H ∪ {h | ∃ x ∈ d :: ds, h ∈ x.histories} := by
      ext h
      simp only [Set.mem_union, Set.mem_ofPred_eq, List.exists_mem_cons_iff, or_assoc]
    rw [← hset]
    exact hj

mutual

/-- What a policy tracks holds of every state that it derives. -/
theorem tracked (hR : p.Tracks t R) : ∀ (d : Derivation) {s : State},
    (d.state p t).result = .ok s → R {h | h ∈ d.histories} s
  | blank, s, h => by
    obtain rfl := state_blank.1 h
    have hset : {h | h ∈ blank.histories} = ({[]} : Set (List Int)) := by
      ext h
      simp [histories]
    rw [hset]
    exact hR.blank
  | access d a, s', h => by
    obtain ⟨s, hs, h⟩ := state_access.1 h
    have hset : {h | h ∈ (access d a).histories} = (· ++ [a]) '' {h | h ∈ d.histories} := by
      ext h
      exact mem_histories_access
    rw [hset]
    exact hR.access (tracked hR d hs) h
  | join d e rest, s', h => by
    obtain ⟨ss, hss, h⟩ := state_join.1 h
    obtain ⟨s, u, us, rfl, hfold⟩ := Policy.result_join.1 h
    obtain ⟨hs, hus⟩ := List.forall₂_cons.1 hss
    obtain ⟨hu, hus⟩ := List.forall₂_cons.1 hus
    have hall := tracked_follow hR (.cons (tracked hR e hu) (trackedOfAll hR rest hus))
      (tracked hR d hs) hfold
    have hset : {h | h ∈ (join d e rest).histories} =
        {h | h ∈ d.histories} ∪ {h | ∃ x ∈ e :: rest, h ∈ x.histories} := by
      ext h
      rw [Set.mem_ofPred_eq, mem_histories_join, List.exists_mem_cons_iff]
      rfl
    rw [hset]
    exact hall

theorem trackedOfAll (hR : p.Tracks t R) : ∀ (ds : List Derivation) {ss : List State},
    List.Forall₂ (fun d s => (d.state p t).result = .ok s) ds ss →
      List.Forall₂ (fun d s => R {h | h ∈ d.histories} s) ds ss
  | [], _, .nil => .nil
  | d :: ds, _, .cons hs hss => .cons (tracked hR d hs) (trackedOfAll hR ds hss)

end

/-- Each of several derived states has the property for some histories. -/
theorem exists_tracked (hR : p.Tracks t R) {ds : List Derivation} {ss : List State}
    (hss : List.Forall₂ (fun d s => (d.state p t).result = .ok s) ds ss) :
    ∀ s ∈ ss, ∃ H, R H s := by
  intro s hs
  obtain ⟨i, hi, rfl⟩ := List.getElem_of_mem hs
  have hall := trackedOfAll hR ds hss
  exact ⟨_, hall.get (hall.length_eq ▸ hi) hi⟩

end

/-! ### Accesses in order -/

/-- A derivation that goes on with accesses in order. -/
def walk (d : Derivation) (addresses : List Int) : Derivation :=
  addresses.foldl access d

/-- A derivation that goes on with accesses goes on with a walk. -/
theorem state_walk {d : Derivation} {addresses : List Int} {s' : State} :
    ((d.walk addresses).state p t).result = .ok s' ↔
      ∃ s, (d.state p t).result = .ok s ∧ (p.walk s addresses t).result = .ok s' := by
  induction addresses generalizing d with
  | nil =>
    show (d.state p t).result = .ok s' ↔ _
    constructor
    · intro h
      exact ⟨s', h, Analysis.result_follow_nil.2 rfl⟩
    · rintro ⟨s, hs, h⟩
      obtain rfl := Analysis.result_follow_nil.1 h
      exact hs
  | cons a addresses ih =>
    show (((access d a).walk addresses).state p t).result = .ok s' ↔ _
    rw [ih]
    constructor
    · rintro ⟨u, hu, h⟩
      obtain ⟨s, hs, hu⟩ := state_access.1 hu
      exact ⟨s, hs, Analysis.result_follow_cons.2 ⟨u, hu, h⟩⟩
    · rintro ⟨s, hs, h⟩
      obtain ⟨u, hu, h⟩ := Analysis.result_follow_cons.1 h
      exact ⟨u, state_access.2 ⟨s, hs, hu⟩, h⟩

theorem mem_histories_walk {d : Derivation} {addresses h : List Int} :
    h ∈ (d.walk addresses).histories ↔ ∃ h' ∈ d.histories, h' ++ addresses = h := by
  induction addresses generalizing d with
  | nil =>
    show h ∈ d.histories ↔ _
    simp
  | cons a addresses ih =>
    show h ∈ ((access d a).walk addresses).histories ↔ _
    rw [ih]
    constructor
    · rintro ⟨h', hmem, rfl⟩
      obtain ⟨h'', hmem', rfl⟩ := mem_histories_access.1 hmem
      exact ⟨h'', hmem', by simp⟩
    · rintro ⟨h', hmem, rfl⟩
      exact ⟨h' ++ [a], mem_histories_access.2 ⟨h', hmem, rfl⟩, by simp⟩

end Derivation

end Residency
