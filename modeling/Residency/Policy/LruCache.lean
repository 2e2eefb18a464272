/-
Residency/Policy/LruCache.lean

A fully associative cache with least-recently-used replacement.  Ages count lines: 0 is
the line used last, `lines - 1` the next victim.

An access to an address that a set does not hold ages every entry by one.  An access to an
address of age `old` ages the entries that may have been younger: in MUST, where ages are
upper bounds, those below `old`; in MAY, where ages are lower bounds, also those at `old`.
Entries that reach the number of lines are evicted, and the address enters at age 0.  The
two sets decide between the two cases independently.
-/
import Residency.Analysis
import Residency.State

namespace Residency

open Text (decimal hex8)

/-- A fully associative cache of the given number of lines. -/
structure LruCache where
  lines : Int
deriving DecidableEq, Repr

namespace LruCache

/-- A cache has lines. -/
def make (lines : Int) : Except Fault LruCache :=
  if lines = 0 then refuse .noLruLine else .ok ⟨lines⟩

/-! ### One set -/

/-- The age of an entry after a hit on another entry of age `old`. -/
def agedByHit (kind : SetKind) (old : Int) (e : Entry) : Int :=
  if e.age < old ∨ (kind = .may ∧ e.age = old) then e.age + 1 else e.age

/-- The other entries of a set with their ages after an access to `address`. -/
def aging (kind : SetKind) (s : EntrySet) (address : Int) : List (Entry × Int) :=
  match s.entry? address with
  | none => s.map fun e => (e, e.age + 1)
  | some hit => (s.without address).map fun e => (e, agedByHit kind hit.age e)

/-- The entries that stay, with their new ages. -/
def survivors (c : LruCache) (kind : SetKind) (s : EntrySet) (address : Int) : EntrySet :=
  (aging kind s address).filterMap fun (e, age) =>
    if age < c.lines then some ⟨e.address, age⟩ else none

/-- The entries that an access evicts. -/
def evicted (c : LruCache) (kind : SetKind) (s : EntrySet) (address : Int) : List Entry :=
  (aging kind s address).filterMap fun (e, age) => if age < c.lines then none else some e

/-- A set after an access. -/
def accessed (c : LruCache) (kind : SetKind) (s : EntrySet) (address : Int) : EntrySet :=
  EntrySet.sorted (c.survivors kind s address ++ [⟨address, 0⟩])

/-- A state after an access. -/
def step (c : LruCache) (s : State) (address : Int) : State :=
  ⟨c.accessed .must s.must address, c.accessed .may s.may address, s.capacityOr c.lines⟩

/-- The join of two states. -/
def merge (c : LruCache) (s t : State) : Except Fault State := do
  let must ← s.must.joinMust t.must
  let may ← s.may.joinMay t.may
  return ⟨must, may, s.capacityOr c.lines⟩

/-! ### The journal -/

/-- Reports a set. -/
def reportSet (kind : SetKind) (s : EntrySet) : Analysis Unit :=
  Analysis.noteInDetail .lruCache ("Abstract " ++ kind.title ++ " cache lines are: ") s.text

/-- Reports what an access does to a set. -/
def reportAccess (c : LruCache) (kind : SetKind) (s : EntrySet) (address : Int) :
    Analysis Unit := do
  (c.evicted kind s address).forM fun e =>
    Analysis.note .debug .lruCache (kind.title ++ ": evicting " ++ hex8 e.address ++ " (age " ++
      decimal e.age ++ ")")
  reportSet kind (c.accessed kind s address)

/-! ### Transfer functions -/

/-- The effect of an access. -/
def access (c : LruCache) (s : State) (address : Int) : Analysis State := do
  c.reportAccess .must s.must address
  c.reportAccess .may s.may address
  Analysis.count (c.step s address).usage
  return c.step s address

/-- The join of two states, with its result in the journal. -/
def joinTwo (c : LruCache) (s t : State) : Analysis State := do
  let joined ← Analysis.ofExcept (c.merge s t)
  reportSet .must joined.must
  reportSet .may joined.may
  return joined

end LruCache

end Residency
