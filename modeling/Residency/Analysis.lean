/-
Residency/Analysis.lean

Analyses: computations that may stop with a fault and that leave behind journal records
and usage, also when they stop.  An analysis is a function of the journal, because some texts
are costly and are made only when they are kept (`inDetail`).  To make a text may fail, and then
the analysis stops (`write`).  A record as such is handed over with its words still open and is
worded by the sink, so a number that cannot be written costs no more than the record (`note`),
unless the sink is strict.

`Outcome` is what a run leaves; `result_bind`, `log_bind` and `usage_bind` say how the
three parts of an outcome come from the parts of a composite analysis.  In particular
`Outcome.result` turns the composition of analyses into the composition of `Except`, so a
statement about results needs to look neither at records nor at usage.
-/
import Residency.Fault
import Residency.Journal
import Residency.Usage

namespace Residency

open Text (Phrase)

/-- What a run of an analysis leaves. -/
structure Outcome (α : Type) where
  result : Except Fault α
  log : List Record
  usage : Usage

/-- A computation that may fail, with records and usage as its traces. -/
def Analysis (α : Type) : Type :=
  Journal → Outcome α

namespace Analysis

variable {α β γ : Type}

/-- Runs an analysis under a journal. -/
def run (x : Analysis α) (t : Journal) : Outcome α :=
  x t

/-- The analysis that does nothing but return `a`. -/
protected def pure (a : α) : Analysis α := fun _ =>
  ⟨.ok a, [], Usage.zero⟩

/-- One analysis after another; the second runs only if the first succeeds. -/
protected def bind (x : Analysis α) (f : α → Analysis β) : Analysis β := fun t =>
  let first := x t
  match first.result with
  | .error e => ⟨.error e, first.log, first.usage⟩
  | .ok a =>
    let second := f a t
    ⟨second.result, first.log ++ second.log, first.usage + second.usage⟩

instance : Monad Analysis where
  pure := Analysis.pure
  bind := Analysis.bind

/-- Stops with a fault. -/
def fail (e : Fault) : Analysis α := fun _ =>
  ⟨refuse e, [], Usage.zero⟩

/-- An analysis without traces. -/
def ofExcept (r : Except Fault α) : Analysis α := fun _ =>
  ⟨r, [], Usage.zero⟩

/-- Writes a phrase, or stops if it cannot be written. -/
def write (message : Phrase) : Analysis String :=
  match message.text? with
  | some text => pure text
  | none => fail .unwritableNumber

/-- Keeps a record. -/
def keep (r : Record) : Analysis Unit := fun _ =>
  ⟨.ok (), [r], Usage.zero⟩

/-- What becomes of a record that cannot be worded. -/
def lose : Analysis Unit := fun t =>
  if t.isStrict then fail .unwritableNumber t else ⟨.ok (), [], Usage.zero⟩

/-- Makes a record, which the sink words and keeps if it admits the level. -/
def note (level : Level) (component : Component) (message : Phrase) : Analysis Unit := fun t =>
  if t.admits level then
    match message.text? with
    | some text => keep ⟨level, component, text⟩ t
    | none => lose t
  else ⟨.ok (), [], Usage.zero⟩

/-- Counts a produced state. -/
def count (u : Usage) : Analysis Unit := fun _ =>
  ⟨.ok (), [], u⟩

/-- Runs `x` only if records of the lowest level are kept. -/
def inDetail (x : Analysis Unit) : Analysis Unit := fun t =>
  if t.admits .debug then x t else ⟨.ok (), [], Usage.zero⟩

/-- Makes a record of the lowest level that ends in a costly text, which is written before the
record is made. -/
def noteInDetail (component : Component) (message : String) (detail : Phrase) : Analysis Unit :=
  inDetail do
    let text ← write detail
    note .debug component (message ++ text)

/-- Runs `x` and hands its result on as a value, whether it failed or not. -/
def attempt (x : Analysis α) : Analysis (Except Fault α) := fun t =>
  let o := x t
  ⟨.ok o.result, o.log, o.usage⟩

/-- Applies `f` to the members of a list in order and keeps the values it returns. -/
def collect (f : α → Analysis (Option β)) : List α → Analysis (List β)
  | [] => pure []
  | a :: as => do
    let b ← f a
    let bs ← collect f as
    pure (b.toList ++ bs)

/-- Follows a list with a state that each member changes. -/
def follow (f : β → α → Analysis β) : β → List α → Analysis β
  | b, [] => pure b
  | b, a :: as => do
    let b' ← f b a
    follow f b' as

/-! ### The parts of an outcome -/

theorem pure_apply (a : α) (t : Journal) :
    (pure a : Analysis α) t = ⟨.ok a, [], Usage.zero⟩ := rfl

theorem bind_apply (x : Analysis α) (f : α → Analysis β) (t : Journal) :
    (x >>= f) t =
      match (x t).result with
      | .error e => ⟨.error e, (x t).log, (x t).usage⟩
      | .ok a => ⟨(f a t).result, (x t).log ++ (f a t).log, (x t).usage + (f a t).usage⟩ := rfl

@[simp] theorem result_pure (a : α) (t : Journal) :
    ((pure a : Analysis α) t).result = .ok a := rfl

@[simp] theorem log_pure (a : α) (t : Journal) : ((pure a : Analysis α) t).log = [] := rfl

@[simp] theorem usage_pure (a : α) (t : Journal) :
    ((pure a : Analysis α) t).usage = Usage.zero := rfl

/-- The result of two parts is the result of the second one, if the first one has a result. -/
theorem result_bind (x : Analysis α) (f : α → Analysis β) (t : Journal) :
    ((x >>= f) t).result = (x t).result >>= fun a => (f a t).result := by
  rw [bind_apply]
  cases (x t).result <;> rfl

/-- The records of both parts are kept, in their order. -/
theorem log_bind (x : Analysis α) (f : α → Analysis β) (t : Journal) :
    ((x >>= f) t).log =
      (x t).log ++ match (x t).result with
        | .error _ => []
        | .ok a => (f a t).log := by
  rw [bind_apply]
  cases (x t).result <;> simp

/-- The usage of both parts is counted together. -/
theorem usage_bind (x : Analysis α) (f : α → Analysis β) (t : Journal) :
    ((x >>= f) t).usage =
      (x t).usage + match (x t).result with
        | .error _ => Usage.zero
        | .ok a => (f a t).usage := by
  rw [bind_apply]
  cases (x t).result <;> simp

theorem bind_ok {x : Analysis α} {t : Journal} {a : α} (h : (x t).result = .ok a)
    (f : α → Analysis β) :
    (x >>= f) t = ⟨(f a t).result, (x t).log ++ (f a t).log, (x t).usage + (f a t).usage⟩ := by
  rw [bind_apply, h]

theorem bind_error {x : Analysis α} {t : Journal} {e : Fault} (h : (x t).result = .error e)
    (f : α → Analysis β) : (x >>= f) t = ⟨.error e, (x t).log, (x t).usage⟩ := by
  rw [bind_apply, h]

@[simp] theorem result_fail (e : Fault) (t : Journal) :
    ((fail e : Analysis α) t).result = refuse e := rfl

@[simp] theorem result_ofExcept (r : Except Fault α) (t : Journal) :
    (ofExcept r t).result = r := rfl

/-- A record of a text is always made. -/
@[simp] theorem result_note (l : Level) (c : Component) (m : String) (t : Journal) :
    (note l c m t).result = .ok () := by
  rw [note]
  split <;> rfl

/-- A record counts nothing, whether it can be worded or not. -/
@[simp] theorem usage_note (l : Level) (c : Component) (m : Phrase) (t : Journal) :
    (note l c m t).usage = Usage.zero := by
  rw [note]
  split
  · split
    · rfl
    · rw [lose]
      split <;> rfl
  · rfl

@[simp] theorem result_count (u : Usage) (t : Journal) : (count u t).result = .ok () := rfl

@[simp] theorem result_attempt (x : Analysis α) (t : Journal) :
    (attempt x t).result = .ok (x t).result := rfl

theorem map_id_apply (x : Analysis α) : id <$> x = x := by
  funext t
  show (x >>= fun a => pure (id a)) t = x t
  cases h : (x t).result with
  | error e => rw [bind_error h, ← h]
  | ok a => rw [bind_ok h]; simp [pure_apply, ← h]

theorem pure_bind_apply (a : α) (f : α → Analysis β) : (pure a >>= f) = f a := by
  funext t
  simp [bind_apply, pure_apply]

theorem bind_bind_apply (x : Analysis α) (f : α → Analysis β) (g : β → Analysis γ) :
    x >>= f >>= g = x >>= fun a => f a >>= g := by
  funext t
  cases h : (x t).result with
  | error e =>
    have hf : ((x >>= f) t).result = .error e := by rw [bind_error h]
    rw [bind_error hf, bind_error h, bind_error h]
  | ok a =>
    cases hf : (f a t).result with
    | error e =>
      have hxf : ((x >>= f) t).result = .error e := by rw [bind_ok h, hf]
      rw [bind_error hxf, bind_ok h, bind_ok h, bind_error hf]
    | ok b =>
      have hxf : ((x >>= f) t).result = .ok b := by rw [bind_ok h, hf]
      rw [bind_ok hxf, bind_ok h, bind_ok h, bind_ok hf]
      simp [List.append_assoc, Usage.add_assoc]

instance : LawfulMonad Analysis :=
  LawfulMonad.mk' Analysis map_id_apply pure_bind_apply bind_bind_apply

end Analysis

end Residency
