/-
Residency/Proofs/Parallel.lean

Two policies along one derivation.  A relation between states that holds of the two blank
states and is kept when both policies access the same address or join related states holds
of the two states that a derivation leads to (`Policy.Parallel`, `Derivation.parallel`).

The relations that are used say that one state is an image of the other: the ages of one
are those of the other, seen through a function for each address that keeps their order and
takes absence to absence (`State.ImageOf`).  Joins keep every such relation, since joins
pick the larger or the smaller of two ages.  What is left to show of two policies is what a
single access does (`State.ImageOf.of_reloaded`).

A derivation over addresses that the policy does not refuse succeeds
(`Derivation.state_succeeds`), so there are two states to compare.
-/
import Residency.Proofs.AgeMaps
import Residency.Proofs.Faults

namespace Residency

variable {p q : Policy} {t u : Journal} {A : Int → Prop}

/-! ### What a derivation accesses -/

namespace Derivation

/-- Every address that the derivation accesses has the property. -/
def Over (A : Int → Prop) (d : Derivation) : Prop :=
  ∀ h ∈ d.histories, ∀ a ∈ h, A a

/-- Every derivation has a history. -/
theorem exists_mem_histories (d : Derivation) : ∃ h, h ∈ d.histories := by
  cases d with
  | blank => exact ⟨[], List.mem_singleton.2 rfl⟩
  | access d a =>
    obtain ⟨h, hh⟩ := exists_mem_histories d
    exact ⟨h ++ [a], mem_histories_access.2 ⟨h, hh, rfl⟩⟩
  | join d e rest =>
    obtain ⟨h, hh⟩ := exists_mem_histories d
    exact ⟨h, mem_histories_join.2 ⟨d, List.mem_cons_self, hh⟩⟩

/-- A derivation over some addresses ends in an access to one of them. -/
theorem over_access {d : Derivation} {a : Int} (h : (access d a).Over A) : d.Over A ∧ A a := by
  constructor
  · intro history hh b hb
    exact h _ (mem_histories_access.2 ⟨history, hh, rfl⟩) b (List.mem_append_left _ hb)
  · obtain ⟨history, hh⟩ := exists_mem_histories d
    exact h _ (mem_histories_access.2 ⟨history, hh, rfl⟩) a (by simp)

theorem over_join {d e : Derivation} {rest : List Derivation} (h : (join d e rest).Over A) :
    ∀ x ∈ d :: e :: rest, x.Over A :=
  fun x hx history hh => h history (mem_histories_join.2 ⟨x, hx, hh⟩)

/-! ### Derivations that succeed -/

section

variable {R : Set (List Int) → State → Prop}

mutual

/-- A derivation succeeds if none of its accesses is refused. -/
theorem state_succeeds (hS : p.Sustains t R) (hR : p.Tracks t R) : ∀ d : Derivation,
    d.Over (fun a => p.refusal? a = none) → (d.state p).Succeeds t
  | blank, _ => ⟨_, state_blank.2 rfl⟩
  | access d a, hd => by
    obtain ⟨hover, ha⟩ := over_access hd
    rw [state]
    exact (state_succeeds hS hR d hover).bind fun s hs => hS.goes (tracked hR d hs) ha
  | join d e rest, hd => by
    have hover := over_join hd
    obtain ⟨s, hs⟩ := state_succeeds hS hR d (hover d (by simp))
    obtain ⟨v, hv⟩ := state_succeeds hS hR e (hover e (by simp))
    obtain ⟨ss, hss⟩ := statesOfAll_succeed hS hR rest fun x hx => hover x (by simp [hx])
    have hall : List.Forall₂ (fun d s => (d.state p t).result = .ok s) (d :: e :: rest)
        (s :: v :: ss) := .cons hs (.cons hv hss)
    obtain ⟨joined, hjoined⟩ := hS.join hR (by simp) (exists_tracked hR hall)
    exact ⟨joined, state_join.2 ⟨_, hall, hjoined⟩⟩

theorem statesOfAll_succeed (hS : p.Sustains t R) (hR : p.Tracks t R) :
    ∀ ds : List Derivation, (∀ d ∈ ds, d.Over fun a => p.refusal? a = none) →
      ∃ ss, List.Forall₂ (fun d s => (d.state p t).result = .ok s) ds ss
  | [], _ => ⟨[], .nil⟩
  | d :: ds, hds => by
    obtain ⟨s, hs⟩ := state_succeeds hS hR d (hds d List.mem_cons_self)
    obtain ⟨ss, hss⟩ := statesOfAll_succeed hS hR ds fun x hx => hds x (List.mem_cons_of_mem d hx)
    exact ⟨s :: ss, .cons hs hss⟩

end

end

end Derivation

/-- Every derivation succeeds in a cache, as long as its sets can be written. -/
theorem LruCache.state_succeeds {c : LruCache} (hc : 1 ≤ c.lines) {t : Threshold}
    (ht : t.Bears c.lines) (d : Derivation) : (d.state (.lruCache c)).Succeeds t := by
  apply Derivation.state_succeeds (sustains_packed hc ht) (tracks_packed hc t)
  exact fun _ _ _ _ => rfl

namespace Scratchpad

/-- The scratchpad has room for the function. -/
def Admits (p : Scratchpad) (a : Int) : Prop :=
  0 < p.bytesOf a ∧ p.bytesOf a ≤ p.capacity

instance (p : Scratchpad) (a : Int) : Decidable (p.Admits a) :=
  inferInstanceAs (Decidable (0 < p.bytesOf a ∧ p.bytesOf a ≤ p.capacity))

/-- A function that fits is not refused. -/
theorem refusal?_of_admits {p : Scratchpad} {a : Int} (ha : p.Admits a) : p.refusal? a = none := by
  cases h : p.refusal? a with
  | none => rfl
  | some e =>
    rcases refusal?_cases h with ⟨hnone, -⟩ | ⟨-, hlarge, -⟩
    · have hzero : p.bytesOf a = 0 := by rw [bytesOf, hnone]
      exact absurd ha.1 (by omega)
    · exact absurd ha.2 (Int.not_le.2 hlarge)

/-- Every derivation over functions that fit succeeds in a scratchpad, as long as its sets can be
written. -/
theorem state_succeeds {p : Scratchpad} {t : Threshold} (ht : t.Bears p.capacity)
    {d : Derivation} (hd : d.Over p.Admits) : (d.state (.scratchpad p)).Succeeds t := by
  apply Derivation.state_succeeds (sustains_packed ht) (p.tracks_packed t)
  exact fun history hh a ha => refusal?_of_admits (hd history hh a ha)

end Scratchpad

/-! ### Two runs -/

/-- A relation between the states of two policies that accesses to the same address and joins
keep. -/
structure Policy.Parallel (p q : Policy) (t u : Journal) (A : Int → Prop)
    (R : State → State → Prop) : Prop where
  blank : R (State.blank p.capacity) (State.blank q.capacity)
  access {s x s' x' : State} {a : Int} (ha : A a) (h : R s x)
    (hs : (p.access s a t).result = .ok s') (hx : (q.access x a u).result = .ok x') : R s' x'
  join {s x v y s' x' : State} (h : R s x) (h' : R v y)
    (hs : (p.joinTwo s v t).result = .ok s') (hx : (q.joinTwo x y u).result = .ok x') : R s' x'

namespace Derivation

variable {R : State → State → Prop}

/-- Joining pairs of states one after another keeps the relation. -/
theorem parallel_follow (hR : p.Parallel q t u A R) {ss xs : List State}
    (hall : List.Forall₂ R ss xs) {s x s' x' : State} (h : R s x)
    (hs : (Analysis.follow p.joinTwo s ss t).result = .ok s')
    (hx : (Analysis.follow q.joinTwo x xs u).result = .ok x') : R s' x' := by
  induction hall generalizing s x with
  | nil =>
    obtain rfl := Analysis.result_follow_nil.1 hs
    obtain rfl := Analysis.result_follow_nil.1 hx
    exact h
  | cons h' _ ih =>
    obtain ⟨joinedS, hjoinedS, hs⟩ := Analysis.result_follow_cons.1 hs
    obtain ⟨joinedX, hjoinedX, hx⟩ := Analysis.result_follow_cons.1 hx
    exact ih (hR.join h h' hjoinedS hjoinedX) hs hx

mutual

/-- Two policies that run in parallel derive related states. -/
theorem parallel (hR : p.Parallel q t u A R) : ∀ (d : Derivation) {s x : State}, d.Over A →
    (d.state p t).result = .ok s → (d.state q u).result = .ok x → R s x
  | blank, s, x, _, hs, hx => by
    obtain rfl := state_blank.1 hs
    obtain rfl := state_blank.1 hx
    exact hR.blank
  | access d a, s', x', hd, hs, hx => by
    obtain ⟨hover, ha⟩ := over_access hd
    obtain ⟨s, hs, hs'⟩ := state_access.1 hs
    obtain ⟨x, hx, hx'⟩ := state_access.1 hx
    exact hR.access ha (parallel hR d hover hs hx) hs' hx'
  | join d e rest, s', x', hd, hs, hx => by
    have hover := over_join hd
    obtain ⟨ss, hss, hs⟩ := state_join.1 hs
    obtain ⟨xs, hxs, hx⟩ := state_join.1 hx
    obtain ⟨s, v, vs, rfl, hfoldS⟩ := Policy.result_join.1 hs
    obtain ⟨x, y, ys, rfl, hfoldX⟩ := Policy.result_join.1 hx
    obtain ⟨hsd, hvs⟩ := List.forall₂_cons.1 hss
    obtain ⟨hve, hvs⟩ := List.forall₂_cons.1 hvs
    obtain ⟨hxd, hys⟩ := List.forall₂_cons.1 hxs
    obtain ⟨hye, hys⟩ := List.forall₂_cons.1 hys
    refine parallel_follow hR (.cons (parallel hR e (hover e (by simp)) hve hye) ?_)
      (parallel hR d (hover d (by simp)) hsd hxd) hfoldS hfoldX
    exact parallelOfAll hR rest (fun z hz => hover z (by simp [hz])) hvs hys

theorem parallelOfAll (hR : p.Parallel q t u A R) : ∀ (ds : List Derivation)
    {ss xs : List State}, (∀ d ∈ ds, d.Over A) →
    List.Forall₂ (fun d s => (d.state p t).result = .ok s) ds ss →
    List.Forall₂ (fun d s => (d.state q u).result = .ok s) ds xs → List.Forall₂ R ss xs
  | [], _, _, _, .nil, .nil => .nil
  | d :: ds, _, _, hds, .cons hs hss, .cons hx hxs =>
    .cons (parallel hR d (hds d List.mem_cons_self) hs hx)
      (parallelOfAll hR ds (fun e he => hds e (List.mem_cons_of_mem d he)) hss hxs)

end

end Derivation

/-! ### Images -/

/-- The ages of `s` are those of `x` seen through `f`, and `x` holds addresses with the property
only. -/
structure State.ImageOf (p q : Policy) (A : Int → Prop) (f : Int → WithTop Int → WithTop Int)
    (s x : State) : Prop where
  left : s.Regular p
  right : x.Regular q
  among : ∀ kind, ∀ e ∈ x.entries kind, A e.address
  ages : ∀ kind a, (s.entries kind).ageOf a = f a ((x.entries kind).ageOf a)

namespace State.ImageOf

variable {f : Int → WithTop Int → WithTop Int} {s x v y s' x' : State}

/-- Blank states are images of each other. -/
theorem blank (hf : ∀ a, f a ⊤ = ⊤) :
    ImageOf p q A f (State.blank p.capacity) (State.blank q.capacity) where
  left := .blank p
  right := .blank q
  among := by rintro (_ | _) e he <;> cases he
  ages := by rintro (_ | _) a <;> exact (hf a).symm

/-- A monotone image of states is carried along their joins. -/
theorem join (hf : ∀ a, Monotone (f a)) (h : ImageOf p q A f s x) (h' : ImageOf p q A f v y)
    (hs : (p.joinTwo s v t).result = .ok s') (hx : (q.joinTwo x y u).result = .ok x') :
    ImageOf p q A f s' x' where
  left := Policy.regular_joinTwo h.left h'.left hs
  right := Policy.regular_joinTwo h.right h'.right hx
  among := fun kind e he => (Policy.mem_or_mem_of_joinTwo h.right h'.right hx kind he).elim
    (h.among kind e) (h'.among kind e)
  ages := by
    intro kind a
    rw [Policy.ageOf_joinTwo h.left h'.left hs, Policy.ageOf_joinTwo h.right h'.right hx,
      h.ages, h'.ages, EntrySet.map_joinedAge (hf a)]

/-- An access keeps the image if it does so for the entry of each other address: one that has no
image gets none, and the image of one that has gets the image of the new age. -/
theorem of_reloaded {sizeS sizeX : Int → Int} {roomS roomX a : Int}
    {ageS ageX : SetKind → Entry → Int} (hf : ∀ a, f a ⊤ = ⊤) (h : ImageOf p q A f s x)
    (hs' : s'.Regular p) (hx' : x'.Regular q) (ha : A a) (hzero : f a (0 : Int) = (0 : Int))
    (hs : ∀ kind, s'.entries kind = (s.entries kind).reloaded sizeS roomS (ageS kind) a)
    (hx : ∀ kind, x'.entries kind = (x.entries kind).reloaded sizeX roomX (ageX kind) a)
    (hnone : ∀ kind b (k : Int), b ≠ a → (x.entries kind).ageOf b = k → f b k = ⊤ →
      f b (upTo (roomX - sizeX b) (ageX kind ⟨b, k⟩)) = ⊤)
    (hsome : ∀ kind b (k l : Int), b ≠ a → (x.entries kind).ageOf b = k → f b k = l →
      upTo (roomS - sizeS b) (ageS kind ⟨b, l⟩) =
        f b (upTo (roomX - sizeX b) (ageX kind ⟨b, k⟩))) :
    ImageOf p q A f s' x' where
  left := hs'
  right := hx'
  among := by
    intro kind e he
    rw [hx, EntrySet.mem_reloaded] at he
    rcases he with rfl | ⟨g, hg, -, -, rfl⟩
    · exact ha
    · exact h.among kind g hg
  ages := by
    intro kind b
    have hages := h.ages kind b
    rw [hs, hx]
    by_cases hb : b = a
    · subst hb
      rw [EntrySet.ageOf_reloaded_self (h.left.distinct kind),
        EntrySet.ageOf_reloaded_self (h.right.distinct kind), hzero]
    · cases hk : (x.entries kind).ageOf b with
      | top =>
        rw [hk, hf] at hages
        rw [EntrySet.ageOf_reloaded_of_top hb hk, EntrySet.ageOf_reloaded_of_top hb hages, hf]
      | coe k =>
        rw [EntrySet.ageOf_reloaded_of_coe (h.right.distinct kind) hb hk]
        cases hl : (s.entries kind).ageOf b with
        | top =>
          rw [EntrySet.ageOf_reloaded_of_top hb hl]
          exact (hnone kind b k hb hk (by rw [← hk, ← hages, hl])).symm
        | coe l =>
          rw [EntrySet.ageOf_reloaded_of_coe (h.left.distinct kind) hb hl]
          exact hsome kind b k l hb hk (by rw [← hk, ← hages, hl])

end State.ImageOf

end Residency
