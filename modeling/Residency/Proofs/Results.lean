/-
Residency/Proofs/Results.lean

Results of analyses.  A composite analysis succeeds if and only if its parts do, one after
the other; the lemmas here peel a successful result apart along `>>=`, `follow` and
`collect`, so that later proofs look neither at records nor at usage and never unfold the
monad.

`follow` runs along a list, so it also splits where the list splits (`result_follow_append`).
`collect` is `filterMap` as soon as the result of every member is known (`result_collect`).
-/
import Mathlib.Data.List.Forall2
import Residency.Analysis

namespace Residency

theorem refuse_ne_ok {α : Type} (e : Fault) (a : α) : (refuse e : Except Fault α) ≠ .ok a := by
  intro h
  cases h

namespace Analysis

variable {α β γ : Type} {t : Journal}

/-! ### Composition -/

/-- Both parts succeed where the whole does. -/
theorem result_bind_eq_ok {x : Analysis α} {f : α → Analysis β} {b : β} :
    ((x >>= f) t).result = .ok b ↔ ∃ a, (x t).result = .ok a ∧ (f a t).result = .ok b := by
  rw [result_bind]
  cases hx : (x t).result with
  | error e =>
    constructor
    · intro h
      cases h
    · rintro ⟨a, ha, -⟩
      cases ha
  | ok a =>
    constructor
    · intro h
      exact ⟨a, rfl, h⟩
    · rintro ⟨a', ha, h⟩
      obtain rfl := Except.ok.inj ha
      exact h

theorem result_pure_eq_ok {a b : α} : ((pure a : Analysis α) t).result = .ok b ↔ a = b := by
  rw [result_pure, Except.ok.injEq]

theorem result_fail_ne_ok {e : Fault} {a : α} (t : Journal) :
    ((fail e : Analysis α) t).result ≠ .ok a :=
  refuse_ne_ok e a

/-- A record that can be worded does not keep the analysis from going on. -/
theorem result_note_bind {l : Level} {c : Component} {m : Text.Phrase}
    (h : m.text?.isSome = true) (f : Unit → Analysis α) :
    ((note l c m >>= f) t).result = (f () t).result := by
  obtain ⟨text, htext⟩ := Option.isSome_iff_exists.1 h
  have hnote : (note l c m t).result = .ok () := by
    rw [note, htext]
    split <;> rfl
  rw [result_bind, hnote]
  rfl

/-- An attempt never stops: it hands the result on, whatever it is. -/
theorem result_attempt_bind (x : Analysis α) (f : Except Fault α → Analysis β) :
    ((x.attempt >>= f) t).result = (f (x t).result t).result := by
  rw [result_bind, result_attempt]
  rfl

/-- An analysis that can only count or report, followed by its value. -/
theorem eq_of_result_bind_pure {x : Analysis β} {a b : α}
    (h : ((x >>= fun _ => pure a) t).result = .ok b) : a = b := by
  obtain ⟨_, -, h⟩ := result_bind_eq_ok.1 h
  exact result_pure_eq_ok.1 h

/-! ### Following a list -/

theorem result_follow_nil {f : β → α → Analysis β} {b c : β} :
    (follow f b [] t).result = .ok c ↔ b = c :=
  result_pure_eq_ok

theorem result_follow_cons {f : β → α → Analysis β} {b c : β} {a : α} {as : List α} :
    (follow f b (a :: as) t).result = .ok c ↔
      ∃ b', (f b a t).result = .ok b' ∧ (follow f b' as t).result = .ok c :=
  result_bind_eq_ok

/-- Following a list is following its parts in turn. -/
theorem result_follow_append {f : β → α → Analysis β} {b c : β} {as bs : List α} :
    (follow f b (as ++ bs) t).result = .ok c ↔
      ∃ b', (follow f b as t).result = .ok b' ∧ (follow f b' bs t).result = .ok c := by
  induction as generalizing b with
  | nil =>
    constructor
    · intro h
      exact ⟨b, result_follow_nil.2 rfl, h⟩
    · rintro ⟨b', hb, h⟩
      obtain rfl := result_follow_nil.1 hb
      exact h
  | cons a as ih =>
    rw [List.cons_append, result_follow_cons]
    constructor
    · rintro ⟨b₁, h₁, h⟩
      obtain ⟨b₂, h₂, h⟩ := ih.1 h
      exact ⟨b₂, result_follow_cons.2 ⟨b₁, h₁, h₂⟩, h⟩
    · rintro ⟨b₂, h₂, h⟩
      obtain ⟨b₁, h₁, h₂⟩ := result_follow_cons.1 h₂
      exact ⟨b₁, h₁, ih.2 ⟨b₂, h₂, h⟩⟩

/-! ### Collecting values -/

/-- Where every member succeeds, the values are collected in order. -/
theorem result_collect {f : α → Analysis (Option β)} {g : α → Option β} {l : List α}
    (h : ∀ a ∈ l, (f a t).result = .ok (g a)) :
    (collect f l t).result = .ok (l.filterMap g) := by
  induction l with
  | nil => rfl
  | cons a l ih =>
    have ha := h a List.mem_cons_self
    have hl := ih fun b hb => h b (List.mem_cons_of_mem a hb)
    refine result_bind_eq_ok.2 ⟨g a, ha, result_bind_eq_ok.2 ⟨_, hl, ?_⟩⟩
    rw [result_pure, List.filterMap_cons]
    cases g a <;> rfl

/-- Where a collection succeeds, every member does. -/
theorem exists_result_of_collect {f : α → Analysis (Option β)} {l : List α} {bs : List β}
    (h : (collect f l t).result = .ok bs) : ∀ a ∈ l, ∃ o, (f a t).result = .ok o := by
  induction l generalizing bs with
  | nil =>
    intro a ha
    cases ha
  | cons b l ih =>
    obtain ⟨o, ho, h⟩ := result_bind_eq_ok.1 h
    obtain ⟨bs', hl, -⟩ := result_bind_eq_ok.1 h
    intro a ha
    rcases List.mem_cons.1 ha with rfl | ha
    · exact ⟨o, ho⟩
    · exact ih hl a ha

/-- If the members can only yield what `g` says, a successful `collect` is `filterMap g`. -/
theorem eq_filterMap_of_collect {f : α → Analysis (Option β)} {g : α → Option β} {l : List α}
    {bs : List β} (hg : ∀ a ∈ l, ∀ o, (f a t).result = .ok o → o = g a)
    (h : (collect f l t).result = .ok bs) : bs = l.filterMap g := by
  have hf : ∀ a ∈ l, (f a t).result = .ok (g a) := by
    intro a ha
    obtain ⟨o, ho⟩ := exists_result_of_collect h a ha
    rw [ho, hg a ha o ho]
  rw [result_collect hf] at h
  exact (Except.ok.inj h).symm

/-- If every member that succeeds yields a value, `collect` pairs members and values up. -/
theorem result_collect_some {f : α → Analysis (Option β)} (hsome : ∀ a, (f a t).result ≠ .ok none)
    {l : List α} {bs : List β} : (collect f l t).result = .ok bs ↔
      List.Forall₂ (fun a b => (f a t).result = .ok (some b)) l bs := by
  induction l generalizing bs with
  | nil => rw [collect, result_pure_eq_ok, List.forall₂_nil_left_iff, eq_comm]
  | cons a l ih =>
    rw [collect, result_bind_eq_ok, List.forall₂_cons_left_iff]
    constructor
    · rintro ⟨o, ho, h⟩
      obtain ⟨bs', hbs', h⟩ := result_bind_eq_ok.1 h
      cases o with
      | none => exact absurd ho (hsome a)
      | some b => exact ⟨b, bs', ho, ih.1 hbs', (result_pure_eq_ok.1 h).symm⟩
    · rintro ⟨b, bs', hb, hbs', rfl⟩
      exact ⟨some b, hb, result_bind_eq_ok.2 ⟨bs', ih.2 hbs', rfl⟩⟩

end Analysis

end Residency
