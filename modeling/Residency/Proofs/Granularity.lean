/-
Residency/Proofs/Granularity.lean

The granularity of a function table does not matter.  A table counts functions in blocks of its
own, and the scratchpad counts what it is told in blocks of the scratchpad.  Rounding up gives
the least multiple (`isLeast_roundUp`), so rounding to blocks that make up larger blocks is lost
as soon as the number is rounded to the larger ones (`roundUp_roundUp`).

Hence two scratchpads of one geometry whose tables know the same sizes, in whatever order they
were registered, find the same room for every function, or fail in the same way.  All that a
scratchpad does goes back to its geometry and to the room that it finds (`Scratchpad.Alike`),
operation by operation up to whole sessions, with their answers, their records and their usage
(`Scratchpad.granularity_irrelevant`).
-/
import Mathlib.Order.Bounds.Defs
import Residency.Proofs.Sessions

namespace Residency

/-! ### Rounding -/

section

variable {n block large : Int}

/-- Every multiple that is not below the number is not below the rounded one. -/
theorem roundUp_le {m : Int} (hblock : 0 < block) (hm : block ∣ m) (hle : n ≤ m) :
    roundUp n block ≤ m := by
  have hgap : block ∣ roundUp n block - m := Int.dvd_sub (dvd_roundUp n block) hm
  have hlt := roundUp_lt hblock n
  -- a positive difference would be a whole block, but the result is less than one above `n`
  by_contra hgt
  have hblock' := Int.le_of_dvd (by omega) hgap
  omega

/-- Rounding up gives the least multiple that is not below the number. -/
theorem isLeast_roundUp (hblock : 0 < block) (n : Int) :
    IsLeast {m | block ∣ m ∧ n ≤ m} (roundUp n block) :=
  ⟨⟨dvd_roundUp n block, le_roundUp hblock n⟩, fun _ hm => roundUp_le hblock hm.1 hm.2⟩

/-- Rounding to blocks that make up larger ones is lost in rounding to the larger ones. -/
theorem roundUp_roundUp (hblock : 0 < block) (hlarge : 0 < large) (h : block ∣ large) (n : Int) :
    roundUp (roundUp n block) large = roundUp n large := by
  apply Int.le_antisymm
  · apply roundUp_le hlarge (dvd_roundUp n large)
    exact roundUp_le hblock (h.trans (dvd_roundUp n large)) (le_roundUp hlarge n)
  · apply roundUp_le hlarge (dvd_roundUp _ large)
    exact (le_roundUp hblock n).trans (le_roundUp hlarge _)

end

/-! ### Tables -/

namespace FunctionTable

/-- Tables that know functions of the same sizes at the same addresses, in whatever order they
were filled and in whatever blocks they count. -/
def SameSizes (f g : FunctionTable) : Prop :=
  ∀ a, (f.function? a).map (·.size) = (g.function? a).map (·.size)

variable {f g : FunctionTable}

/-- A table answers from the size that it has at an address and from nothing else. -/
theorem exactSize_congr (h : f.SameSizes g) : f.exactSize = g.exactSize := by
  funext a
  have ha := h a
  rw [exactSize, exactSize]
  cases hf : f.function? a with
  | none =>
    rw [hf, Option.map_none] at ha
    rw [Option.map_eq_none_iff.1 ha.symm]
  | some r =>
    rw [hf, Option.map_some] at ha
    obtain ⟨r', hg, hsize⟩ := Option.map_eq_some_iff.1 ha.symm
    rw [hg]
    exact congrArg pure hsize.symm

/-- A table answers with the registered size, or with the fault that there is none. -/
theorem result_exactSize (f : FunctionTable) (a : Int) (t : Journal) :
    (f.exactSize a t).result =
      (f.function? a).elim (.error (.unknownFunction a)) fun r => .ok r.size := by
  rw [exactSize]
  cases f.function? a with
  | some r => rfl
  | none => exact Analysis.result_note_bind (by rfl) _

end FunctionTable

/-! ### Scratchpads -/

namespace Scratchpad

variable {p q : Scratchpad}

/-- The blocks of the table are lost in those of the scratchpad, if they make them up. -/
theorem room_eq (h : p.functions.blockSize ∣ p.geometry.blockSize) (a : Int) :
    p.room a = do
      let size ← p.functions.exactSize a
      return roundUp size p.geometry.blockSize := by
  have hround := roundUp_roundUp p.functions.blockSize_pos p.geometry.blockSize_pos h
  simp only [room, FunctionTable.roundedSize, bind_assoc, pure_bind, hround]

/-- Scratchpads of one geometry that find the same room for every function. -/
structure Alike (p q : Scratchpad) : Prop where
  geometry : p.geometry = q.geometry
  room : p.room = q.room

namespace Alike

variable (h : p.Alike q)
include h

theorem capacity : p.capacity = q.capacity := by
  rw [Scratchpad.capacity, Scratchpad.capacity, h.geometry]

/-- The texts of sets name the same ranges. -/
theorem setText : p.setText = q.setText := by
  funext s
  rw [Scratchpad.setText, Scratchpad.setText, h.room]

theorem occupied : p.occupied = q.occupied := by
  funext s
  rw [Scratchpad.occupied, Scratchpad.occupied, h.room]

theorem shifted : p.shifted = q.shifted := by
  funext size e
  rw [Scratchpad.shifted, Scratchpad.shifted, h.room, h.capacity]

theorem moved : p.moved = q.moved := by
  funext kind f size e
  rw [Scratchpad.moved, Scratchpad.moved, h.room, h.capacity]

theorem survivors : p.survivors = q.survivors := by
  funext kind s a size
  rw [Scratchpad.survivors, Scratchpad.survivors, h.shifted, h.moved]

theorem reportSet : p.reportSet = q.reportSet := by
  funext kind s
  rw [Scratchpad.reportSet, Scratchpad.reportSet, h.setText]

/-- An access leaves the same entries in a set. -/
theorem accessed : p.accessed = q.accessed := by
  funext kind s a size
  rw [Scratchpad.accessed, Scratchpad.accessed, h.survivors, h.reportSet, h.occupied, h.capacity]

/-- Functions that are too large are treated alike. -/
theorem outsized : p.outsized = q.outsized := by
  funext s a size
  rw [Scratchpad.outsized, Scratchpad.outsized, h.geometry, h.capacity]

/-- An access has the same outcome, records and usage included. -/
theorem access : p.access = q.access := by
  funext s a
  rw [Scratchpad.access, Scratchpad.access, h.room, h.outsized, h.accessed, h.capacity]

/-- A join of two states has the same outcome. -/
theorem joinTwo : p.joinTwo = q.joinTwo := by
  funext s u
  rw [Scratchpad.joinTwo, Scratchpad.joinTwo, Scratchpad.merge, Scratchpad.merge, h.reportSet,
    h.capacity]

end Alike

end Scratchpad

/-! ### Policies -/

namespace Policy

/-- Policies for memories of one capacity with the same transfer functions. -/
structure Alike (p q : Policy) : Prop where
  capacity : p.capacity = q.capacity
  access : p.access = q.access
  join : p.join = q.join

namespace Alike

variable {p q : Policy} (h : p.Alike q)
include h

theorem initial : p.initial = q.initial := by
  rw [Policy.initial, Policy.initial, h.capacity]

/-- A walk has the same outcome, access by access. -/
theorem walk : p.walk = q.walk := by
  funext s as
  rw [Policy.walk, Policy.walk, h.access]

theorem judge : p.judge = q.judge := by
  funext s a
  rw [Policy.judge, Policy.judge, h.access]

/-- The same verdicts are given along a walk. -/
theorem judgeAll : p.judgeAll = q.judgeAll := by
  funext s as
  rw [Policy.judgeAll, Policy.judgeAll, h.judge]

theorem named : p.named = q.named := by
  funext given i
  rw [Policy.named, Policy.named, h.capacity]

/-- Every request has the same outcome. -/
theorem respond : p.respond = q.respond := by
  funext given r
  cases r with
  | blank => simp only [Policy.respond, h.initial]
  | access i a => simp only [Policy.respond, h.access, h.named]
  | walk i as => simp only [Policy.respond, h.walk, h.named]
  | join is => simp only [Policy.respond, h.join, h.named]
  | judge i as => simp only [Policy.respond, h.judgeAll, h.named]

theorem serve : p.serve = q.serve := by
  funext given r
  rw [Policy.serve, Policy.serve, h.respond]

/-- So has every session. -/
theorem session : p.session = q.session := by
  funext requests
  rw [Policy.session, Policy.session, h.serve]

end Alike

end Policy

namespace Scratchpad

variable {p q : Scratchpad}

/-- Scratchpads that are alike make policies that are alike. -/
theorem Alike.policy (h : p.Alike q) : (Policy.scratchpad p).Alike (.scratchpad q) where
  capacity := h.capacity
  access := h.access
  join := by
    have hsetText : (Policy.scratchpad p).setText = (Policy.scratchpad q).setText := h.setText
    have hmergeTwo : (Policy.scratchpad p).mergeTwo = (Policy.scratchpad q).mergeTwo := h.joinTwo
    have hjoinTwo : (Policy.scratchpad p).joinTwo = (Policy.scratchpad q).joinTwo := by
      funext s u
      simp only [Policy.joinTwo, Policy.reportJoin, hsetText, hmergeTwo]
      rfl
    funext ss
    rcases ss with - | ⟨s, - | ⟨u, rest⟩⟩
    · rfl
    · rfl
    · rw [Policy.join, Policy.join, hjoinTwo]

/-- Two tables of the same sizes, in blocks that make up those of the scratchpad, leave it no
difference. -/
theorem alike_of_sameSizes {geometry : ScratchpadGeometry} {f g : FunctionTable}
    (hsame : f.SameSizes g) (hf : f.blockSize ∣ geometry.blockSize)
    (hg : g.blockSize ∣ geometry.blockSize) : Alike ⟨geometry, f⟩ ⟨geometry, g⟩ where
  geometry := rfl
  room := by
    funext a
    rw [room_eq (p := ⟨geometry, f⟩) hf, room_eq (p := ⟨geometry, g⟩) hg,
      FunctionTable.exactSize_congr hsame]

/-- **Granularity.**  Rounding up gives the least multiple.  If two tables know
functions of the same sizes at the same addresses, however they were filled, and count in blocks
that make up those of a scratchpad, then with either table the scratchpad finds the same room for
every function, namely its registered size in whole blocks of the scratchpad, or the fault that
there is no function; every access and every join has the same outcome in every state, and so has
every session. -/
theorem granularity_irrelevant (geometry : ScratchpadGeometry) (f g : FunctionTable)
    (hsame : f.SameSizes g) (hf : f.blockSize ∣ geometry.blockSize)
    (hg : g.blockSize ∣ geometry.blockSize) :
    (∀ block > 0, ∀ n, IsLeast {m | block ∣ m ∧ n ≤ m} (roundUp n block)) ∧
    (∀ a t, room ⟨geometry, f⟩ a t = room ⟨geometry, g⟩ a t ∧
      (room ⟨geometry, f⟩ a t).result = (f.function? a).elim (.error (.unknownFunction a))
        fun r => .ok (roundUp r.size geometry.blockSize)) ∧
    (∀ s a t, access ⟨geometry, f⟩ s a t = access ⟨geometry, g⟩ s a t) ∧
    (∀ ss t, (Policy.scratchpad ⟨geometry, f⟩).join ss t =
      (Policy.scratchpad ⟨geometry, g⟩).join ss t) ∧
    ∀ requests t, (Policy.scratchpad ⟨geometry, f⟩).session requests t =
      (Policy.scratchpad ⟨geometry, g⟩).session requests t := by
  have halike := alike_of_sameSizes hsame hf hg
  refine ⟨fun block hblock n => isLeast_roundUp hblock n, fun a t => ⟨?_, ?_⟩, fun s a t => ?_,
    fun ss t => ?_, fun requests t => ?_⟩
  · rw [halike.room]
  · rw [room_eq (p := ⟨geometry, f⟩) hf, Analysis.result_bind, FunctionTable.result_exactSize]
    cases f.function? a <;> rfl
  · rw [halike.access]
  · rw [halike.policy.join]
  · rw [halike.policy.session]

end Scratchpad

/-- A table that counts in the given blocks, with functions registered one after another. -/
def FunctionTable.filled (block : Int) (h : 0 < block) (functions : List RegisteredFunction) :
    FunctionTable :=
  functions.foldl insert ⟨block, [], h, List.nodup_nil⟩

-- The function at 2 has 6 bytes in one table and 5 in the other, and 8 in the scratchpad; it is
-- registered twice and last in the one, and once and first in the other.
theorem Scratchpad.granularity_irrelevant_registered_twice :
    let one : RegisteredFunction := ⟨1, 8, none, by decide⟩
    let two : RegisteredFunction := ⟨2, 5, some "two", by decide⟩
    let f : FunctionTable := .filled 2 (by decide) [one, ⟨2, 3, none, by decide⟩, two]
    let g : FunctionTable := .filled 1 (by decide) [two, one]
    let geometry := Scratchpad.mixedSizes.geometry
    let requests : List Policy.Request := [.blank, .walk 0 [1, 2], .access 1 9, .walk 0 [2, 1],
      .join [1, 2], .access 3 2]
    let t : Threshold := some .debug
    f.SameSizes g ∧
    (f.roundedSize 2 none).result = .ok 6 ∧ (g.roundedSize 2 none).result = .ok 5 ∧
    room ⟨geometry, f⟩ 2 none = room ⟨geometry, g⟩ 2 none ∧
    (room ⟨geometry, f⟩ 2 none).result = .ok 8 ∧
    (Policy.scratchpad ⟨geometry, f⟩).session requests t =
      (Policy.scratchpad ⟨geometry, g⟩).session requests t := by
  intro one two f g geometry requests t
  have hsame : f.SameSizes g := by
    intro a
    have hf : f.functions = [one, two] := rfl
    have hg : g.functions = [two, one] := rfl
    rw [FunctionTable.function?, FunctionTable.function?, hf, hg]
    by_cases hone : a = 1
    · subst hone
      rfl
    · by_cases htwo : a = 2
      · subst htwo
        rfl
      · simp [one, two, Ne.symm hone, Ne.symm htwo]
  obtain ⟨-, hroom, -, -, hsession⟩ :=
    granularity_irrelevant geometry f g hsame (by decide) (by decide)
  exact ⟨hsame, rfl, rfl, (hroom 2 none).1, (hroom 2 none).2, hsession requests t⟩

end Residency
