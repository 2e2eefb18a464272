/-
Residency/Proofs/CacheLines.lean

The lines of a cache.  The bit tricks of the geometry are arithmetic on all integers, negative
ones included: a power of two is what has no bit in common with its predecessor, a shift by
its logarithm is the floor of a quotient, and a mask of its negative takes an address down to
the nearest multiple (`alignDown_two_pow`).  A geometry is determined by its two sizes, so the check
on construction accepts exactly the numbers of geometries (`CacheGeometry.check_eq_ok`), and
lines, slots and capacity fit together (`CacheGeometry.checked_exactly`).

The lines of a range of code are found by a loop that starts at the line of the first byte and
goes on below the end of the range.  They are the lines that share a byte with the range, with
one exception: an empty range that begins inside a line has this line all the same
(`linesOfRange_touched`).
-/
import Mathlib
import Residency.Policy.DirectMapped
import Residency.Memory.CacheGeometry
import Residency.Proofs.Wording

namespace Residency

variable {n : Int} {k : Nat}

/-! ### Powers of two -/

/-- The check for powers of two accepts these and nothing else. -/
theorem isPowerOfTwo_iff : isPowerOfTwo n = true ↔ ∃ k : Nat, n = 2 ^ k := by
  constructor
  · intro h
    refine ⟨n.toNat.log2, ?_⟩
    have hn := eq_shiftLeft_of_isPowerOfTwo h
    rw [Nat.one_shiftLeft] at hn
    exact_mod_cast hn
  · rintro ⟨k, rfl⟩
    have hnat : ((2 : Int) ^ k).toNat = 2 ^ k := Int.toNat_natCast (2 ^ k)
    have hbits := (Nat.and_sub_one_eq_zero_iff_isPowerOfTwo (Nat.two_pow_pos k).ne').2 ⟨k, rfl⟩
    simp [isPowerOfTwo, hnat, hbits]

theorem binaryLog_two_pow (k : Nat) : binaryLog (2 ^ k) = k := by
  have hne : (2 : Int) ^ k ≠ 0 := by positivity
  have hnat : ((2 : Int) ^ k).natAbs = 2 ^ k := Int.natAbs_natCast (2 ^ k)
  rw [binaryLog, bitLength, if_neg hne, hnat, Nat.log2_two_pow]
  omega

/-! ### Masks -/

/-- All bits below the exponent are set in a number that is as large as possible in its block. -/
theorem or_two_pow_sub_one (m k : Nat) : m ||| (2 ^ k - 1) = 2 ^ k * (m / 2 ^ k) + (2 ^ k - 1) := by
  rw [Nat.two_pow_add_eq_or_of_lt (Nat.sub_lt (Nat.two_pow_pos k) Nat.one_pos)]
  apply Nat.eq_of_testBit_eq
  intro i
  simp only [Nat.testBit_or, Nat.testBit_two_pow_mul, Nat.testBit_div_two_pow,
    Nat.testBit_two_pow_sub_one]
  by_cases hi : k ≤ i
  · simp [hi]
  · simp [hi, Nat.lt_of_not_le hi]

/-- A mask takes an address down to a multiple of the power of two, whatever its sign. -/
theorem alignDown_two_pow (x : Int) (k : Nat) : alignDown x (2 ^ k) = x / 2 ^ k * 2 ^ k := by
  have hpos := Nat.two_pow_pos k
  have hmask : ~~~((2 : Int) ^ k - 1) = .negSucc (2 ^ k - 1) := by
    have hsub : (2 : Int) ^ k - 1 = (2 ^ k - 1 : Nat) := by
      rw [Nat.cast_sub hpos]
      norm_cast
    rw [hsub]
    rfl
  rw [alignDown, hmask]
  cases x with
  | ofNat m =>
    -- The bits below the exponent are the remainder, which is taken away.
    have hmod := Nat.div_add_mod' m (2 ^ k)
    have hclear : m - (m &&& (2 ^ k - 1)) = m / 2 ^ k * 2 ^ k := by
      rw [Nat.and_two_pow_sub_one_eq_mod]
      omega
    show ((m - (m &&& (2 ^ k - 1)) : Nat) : Int) = _
    rw [hclear]
    push_cast
    rfl
  | negSucc m =>
    -- The bits of the complement are set instead, up to the end of its block.
    have hdiv : Int.negSucc m / 2 ^ k = .negSucc (m / 2 ^ k) := by
      have hcast : (2 : Int) ^ k = (2 ^ k : Nat) := by norm_cast
      rw [hcast]
      exact Int.negSucc_ediv m (Int.natCast_pos.2 hpos)
    show Int.negSucc (m ||| (2 ^ k - 1)) = _
    rw [hdiv, or_two_pow_sub_one, Int.negSucc_eq, Int.negSucc_eq]
    push_cast [Nat.cast_sub hpos]
    ring

/-! ### Geometries -/

namespace CacheGeometry

variable {g g' : CacheGeometry} {capacity lineSize : Int} {lineBits lines : Option Int}
  {policy : PolicyKind}

theorem lineSize_eq_two_pow (g : CacheGeometry) : g.lineSize = 2 ^ g.lineBits := by
  rw [g.lineSize_eq, Nat.one_shiftLeft]
  norm_cast

theorem lineSize_pos (g : CacheGeometry) : 0 < g.lineSize := by
  rw [g.lineSize_eq_two_pow]
  positivity

theorem lineBits_eq (h : g.lineSize = 2 ^ k) : g.lineBits = k := by
  rw [g.lineSize_eq_two_pow] at h
  exact_mod_cast pow_right_injective₀ (a := (2 : Int)) (by norm_num) (by norm_num) h

/-- The two sizes determine the number of lines and the bits of an offset. -/
theorem eq_of_sizes (hcapacity : g.capacity = g'.capacity) (hline : g.lineSize = g'.lineSize)
    (hpolicy : g.policy = g'.policy) : g = g' := by
  have hbits : g.lineBits = g'.lineBits := lineBits_eq (hline.trans g'.lineSize_eq_two_pow)
  have hlines : g.lines = g'.lines := by
    apply Int.eq_of_mul_eq_mul_right g'.lineSize_pos.ne'
    rw [g'.capacity_eq, ← hcapacity, ← hline, g.capacity_eq]
  cases g
  cases g'
  simp_all

/-- There is a geometry for every positive number of whole lines of a power of two of bytes. -/
theorem exists_geometry (policy : PolicyKind) :
    (∃ g : CacheGeometry, g.capacity = capacity ∧ g.lineSize = lineSize ∧ g.policy = policy) ↔
      0 < capacity ∧ (∃ k : Nat, lineSize = 2 ^ k) ∧ lineSize ∣ capacity := by
  constructor
  · rintro ⟨g, rfl, rfl, -⟩
    refine ⟨?_, ⟨g.lineBits, g.lineSize_eq_two_pow⟩, ⟨g.lines, ?_⟩⟩
    · rw [← g.capacity_eq]
      exact Int.mul_pos g.lines_pos g.lineSize_pos
    · rw [← g.capacity_eq, Int.mul_comm]
  · rintro ⟨hpos, ⟨k, rfl⟩, lines, rfl⟩
    refine ⟨⟨_, 2 ^ k, k, lines, policy, ?_, Int.mul_comm _ _, ?_⟩, rfl, rfl, rfl⟩
    · rw [Nat.one_shiftLeft]
      norm_cast
    · exact pos_of_mul_pos_right hpos (by positivity)

theorem any_bne_eq_false {given : Option Int} {v : Int} :
    given.any (· != v) = false ↔ ∀ b ∈ given, b = v := by
  cases given <;> simp

/-- The check builds the geometry of the two sizes, if there is one and the numbers that are
given besides are those of the geometry. -/
theorem check_eq_ok : check capacity lineSize lineBits lines policy = .ok g ↔
    (g.capacity = capacity ∧ g.lineSize = lineSize ∧ g.policy = policy) ∧
      (∀ b ∈ lineBits, b = g.lineBits) ∧ ∀ n ∈ lines, n = g.lines := by
  rw [check]
  constructor
  · intro h
    by_cases hc : capacity ≤ 0
    · rw [dif_pos hc] at h
      exact absurd h (refuse_ne_ok _ _)
    rw [dif_neg hc] at h
    by_cases hl : isPowerOfTwo lineSize = false
    · rw [dif_pos hl] at h
      exact absurd h (refuse_ne_ok _ _)
    rw [dif_neg hl] at h
    by_cases hm : capacity.fmod lineSize ≠ 0
    · rw [dif_pos hm] at h
      exact absurd h (refuse_ne_ok _ _)
    rw [dif_neg hm] at h
    dsimp only at h
    split at h
    · exact absurd h (refuse_ne_ok _ _)
    rename_i hbits
    split at h
    · exact absurd h (refuse_ne_ok _ _)
    rename_i hlines
    obtain rfl := Except.ok.inj h
    exact ⟨⟨rfl, rfl, rfl⟩, any_bne_eq_false.1 (Bool.eq_false_iff.2 hbits),
      any_bne_eq_false.1 (Bool.eq_false_iff.2 hlines)⟩
  · rintro ⟨⟨rfl, rfl, rfl⟩, hbits, hlines⟩
    obtain ⟨hpos, htwo, hdvd⟩ := (exists_geometry g.policy).1 ⟨g, rfl, rfl, rfl⟩
    have hlog : g.lineSize.toNat.log2 = g.lineBits := by
      rw [g.lineSize_eq, Int.toNat_natCast, Nat.one_shiftLeft, Nat.log2_two_pow]
    have hcount : g.capacity.fdiv g.lineSize = g.lines := by
      rw [← g.capacity_eq, Int.mul_fdiv_cancel _ g.lineSize_pos.ne']
    rw [dif_neg (Int.not_le.2 hpos), dif_neg (by simp [isPowerOfTwo_iff.2 htwo]),
      dif_neg (not_not.2 (Int.dvd_iff_fmod_eq_zero.1 hdvd))]
    dsimp only
    rw [if_neg (by rw [hlog, any_bne_eq_false.2 hbits]; exact Bool.false_ne_true),
      if_neg (by rw [hcount, any_bne_eq_false.2 hlines]; exact Bool.false_ne_true)]
    exact congrArg Except.ok (eq_of_sizes rfl rfl rfl)

/-- A new geometry is reported, which changes nothing. -/
theorem result_make (t : Threshold) :
    (make capacity lineSize lineBits lines policy t).result =
      check capacity lineSize lineBits lines policy := by
  cases h : check capacity lineSize lineBits lines policy with
  | error e =>
    rw [make]
    exact Analysis.result_bind_of_error h
  | ok g =>
    rw [make, Analysis.result_bind_of_ok h,
      Analysis.result_bind_of_ok (Analysis.result_note_journal _ _ _ t)]
    rfl

/-! ### Lines and slots -/

theorem blockOf_eq (g : CacheGeometry) (x : Int) : g.blockOf x = x / g.lineSize := by
  rw [blockOf, Int.shiftRight_eq_div_pow, g.lineSize_eq_two_pow]
  norm_cast

theorem lineOf_eq (g : CacheGeometry) (x : Int) : g.lineOf x = g.blockOf x * g.lineSize := by
  rw [blockOf_eq, lineOf, g.lineSize_eq_two_pow, alignDown_two_pow]

/-- A line holds the addresses from its first one on. -/
theorem lineOf_le_lt (g : CacheGeometry) (x : Int) :
    g.lineOf x ≤ x ∧ x < g.lineOf x + g.lineSize := by
  have hlt := Int.lt_ediv_add_one_mul_self x g.lineSize_pos
  rw [Int.add_mul, Int.one_mul] at hlt
  rw [lineOf_eq, blockOf_eq]
  exact ⟨Int.ediv_mul_le x g.lineSize_pos.ne', hlt⟩

/-- An address and its line are in the same block. -/
theorem blockOf_lineOf (g : CacheGeometry) (x : Int) : g.blockOf (g.lineOf x) = g.blockOf x := by
  rw [g.blockOf_eq (g.lineOf x), lineOf_eq, Int.mul_ediv_cancel _ g.lineSize_pos.ne']

/-- The cache with direct mapping that has this geometry. -/
def directMapped (g : CacheGeometry) : DirectMapped :=
  ⟨g.lines, g.lineBits⟩

theorem make_directMapped (g : CacheGeometry) :
    DirectMapped.make g.lines g.lineBits = .ok g.directMapped :=
  if_neg g.lines_pos.ne'

/-- The slot of an address is the rest of its block number by the number of lines. -/
theorem slotOf_directMapped (g : CacheGeometry) (x : Int) :
    g.directMapped.slotOf x = .ok (g.blockOf x % g.lines) := by
  have hslot : g.directMapped.slot x = g.blockOf x % g.lines :=
    Int.fmod_eq_emod_of_nonneg _ g.lines_pos.le
  have hbits : ¬g.directMapped.lineBits < 0 := Int.not_lt.2 (Int.natCast_nonneg g.lineBits)
  rw [DirectMapped.slotOf, DirectMapped.requireSlots, if_neg hbits, hslot]
  rfl

/-- Lines share a slot if they are a multiple of the capacity apart. -/
theorem slot_lineOf_eq_iff (g : CacheGeometry) (x y : Int) :
    g.blockOf (g.lineOf x) % g.lines = g.blockOf (g.lineOf y) % g.lines ↔
      g.capacity ∣ g.lineOf x - g.lineOf y := by
  rw [blockOf_lineOf, blockOf_lineOf, lineOf_eq, lineOf_eq, ← Int.sub_mul, ← g.capacity_eq,
    Int.mul_dvd_mul_iff_right g.lineSize_pos.ne', Int.emod_eq_emod_iff_emod_sub_eq_zero,
    ← Int.dvd_iff_emod_eq_zero]

/-- **Geometries and addresses.**  A capacity and a line size are accepted if and only if they
are a positive number of whole lines of a power of two of bytes; the exponent and the number of
lines follow, and where they are given they must be these.  Every address, of either sign, is
in the line that starts at its block number times the line size, the block number being the
floor of a quotient.  An address has the slot of its line, one of as many as there are lines, and
two lines share a slot if and only if they are a multiple of the capacity apart. -/
theorem checked_exactly (capacity lineSize : Int) (policy : PolicyKind) :
    (∀ (t : Threshold) lineBits lines,
      (make capacity lineSize lineBits lines policy t).result =
        check capacity lineSize lineBits lines policy) ∧
    ((∃ g, check capacity lineSize none none policy = .ok g) ↔
      0 < capacity ∧ (∃ k : Nat, lineSize = 2 ^ k) ∧ lineSize ∣ capacity) ∧
    ∀ g, check capacity lineSize none none policy = .ok g →
      (g.capacity = capacity ∧ g.lineSize = lineSize ∧ g.policy = policy) ∧
      (∀ k : Nat, lineSize = 2 ^ k → g.lineBits = k ∧ binaryLog lineSize = k) ∧
      (1 ≤ g.lines ∧ g.lines * lineSize = capacity) ∧
      (∀ lineBits lines, (∃ g', check capacity lineSize lineBits lines policy = .ok g') ↔
        (∀ b ∈ lineBits, b = g.lineBits) ∧ ∀ n ∈ lines, n = g.lines) ∧
      (∀ x : Int, g.blockOf x = ⌊(x : ℚ) / lineSize⌋ ∧ g.lineOf x = g.blockOf x * lineSize ∧
        g.lineOf x ≤ x ∧ x < g.lineOf x + lineSize) ∧
      ∃ c, DirectMapped.make g.lines g.lineBits = .ok c ∧
        (∀ x, ∃ slot, c.slotOf x = .ok slot ∧ c.slotOf (g.lineOf x) = .ok slot ∧
          0 ≤ slot ∧ slot < g.lines) ∧
        ∀ x y, c.slotOf (g.lineOf x) = c.slotOf (g.lineOf y) ↔
          capacity ∣ g.lineOf x - g.lineOf y := by
  refine ⟨fun t lineBits lines => result_make t, ?_, fun g hg => ?_⟩
  · rw [← exists_geometry policy]
    simp [check_eq_ok]
  obtain ⟨⟨rfl, rfl, rfl⟩, -, -⟩ := check_eq_ok.1 hg
  refine ⟨⟨rfl, rfl, rfl⟩, fun k hk => ⟨lineBits_eq hk, ?_⟩, ⟨g.lines_pos, g.capacity_eq⟩,
    fun lineBits lines => ?_, fun x => ⟨?_, g.lineOf_eq x, g.lineOf_le_lt x⟩, g.directMapped,
    g.make_directMapped, fun x => ⟨g.blockOf x % g.lines, g.slotOf_directMapped x, ?_,
      Int.emod_nonneg _ g.lines_pos.ne', Int.emod_lt_of_pos _ g.lines_pos⟩, fun x y => ?_⟩
  · rw [hk, binaryLog_two_pow]
  · -- Whatever is built from these sizes is `g` itself.
    constructor
    · rintro ⟨g', h⟩
      obtain ⟨⟨hcapacity, hline, hpolicy⟩, hgiven⟩ := check_eq_ok.1 h
      obtain rfl := eq_of_sizes hcapacity hline hpolicy
      exact hgiven
    · intro hgiven
      exact ⟨g, check_eq_ok.2 ⟨⟨rfl, rfl, rfl⟩, hgiven⟩⟩
  · rw [blockOf_eq, g.lineSize_eq, Int.cast_natCast, Rat.floor_intCast_div_natCast]
  · rw [slotOf_directMapped, blockOf_lineOf]
  · rw [slotOf_directMapped, slotOf_directMapped, Except.ok.injEq, slot_lineOf_eq_iff]

-- The line of a negative address shares its slot with the last line of the first round.
theorem checked_exactly_six_lines : ∃ g c,
    check 96 16 none none .directMapped = .ok g ∧ g.lineBits = 4 ∧ g.lines = 6 ∧
    (∃ g', check 96 16 (some 4) (some 6) .directMapped = .ok g') ∧
    (¬∃ g', check 96 16 none (some 5) .directMapped = .ok g') ∧
    g.blockOf (-5) = -1 ∧ g.lineOf (-5) = -16 ∧ g.lineOf 95 = 80 ∧
    DirectMapped.make g.lines g.lineBits = .ok c ∧ c.slotOf (-16) = c.slotOf 80 := by
  obtain ⟨-, haccepted, hall⟩ := checked_exactly 96 16 .directMapped
  obtain ⟨g, hg⟩ := haccepted.2 ⟨by decide, ⟨4, rfl⟩, by decide⟩
  obtain ⟨-, hbits, ⟨-, hlines⟩, hgiven, haddress, c, hc, -, hshare⟩ := hall g hg
  have hbits : g.lineBits = 4 := (hbits 4 rfl).1
  have hlines : g.lines = 6 := by omega
  obtain ⟨hblock, hline, -, -⟩ := haddress (-5)
  obtain ⟨hblock', hline', -, -⟩ := haddress 95
  have hblock : g.blockOf (-5) = -1 := by
    rw [hblock]
    norm_num
  have hblock' : g.blockOf 95 = 5 := by
    rw [hblock']
    norm_num
  have hline : g.lineOf (-5) = -16 := by rw [hline, hblock]; rfl
  have hline' : g.lineOf 95 = 80 := by rw [hline', hblock']; rfl
  refine ⟨g, c, hg, hbits, hlines, ?_, ?_, hblock, hline, hline', hc, ?_⟩
  · exact (hgiven (some 4) (some 6)).2 (by simp [hbits, hlines])
  · rw [hgiven]
    simp [hlines]
  · have hslots := hshare (-5) 95
    rw [hline, hline'] at hslots
    exact hslots.2 (by decide)

end CacheGeometry

/-! ### Lines of a range -/

/-- The loop yields its start and what lies whole lines above it, below the end. -/
theorem mem_linesFrom {lineSize stop address L : Int} (h : 0 < lineSize) :
    L ∈ linesFrom h stop address ↔ lineSize ∣ L - address ∧ address ≤ L ∧ L < stop := by
  fun_induction linesFrom h stop address with
  | case1 address hlt ih =>
    rw [List.mem_cons, ih, ← Int.sub_sub, dvd_sub_self_right]
    constructor
    · rintro (rfl | ⟨hdvd, hle, hstop⟩)
      · simp [hlt]
      · exact ⟨hdvd, by omega, hstop⟩
    · rintro ⟨hdvd, hle, hstop⟩
      -- Above the start the next candidate is a whole line away.
      rcases hle.eq_or_lt with rfl | hlt
      · exact .inl rfl
      · have hline := Int.le_of_dvd (by omega) hdvd
        exact .inr ⟨hdvd, by omega, hstop⟩
  | case2 address hlt =>
    simp only [List.not_mem_nil, false_iff, not_and]
    omega

theorem pairwise_linesFrom {lineSize : Int} (h : 0 < lineSize) (stop address : Int) :
    (linesFrom h stop address).Pairwise (· < ·) := by
  fun_induction linesFrom h stop address with
  | case1 address hlt ih =>
    refine List.pairwise_cons.2 ⟨fun L hL => ?_, ih⟩
    have hle := ((mem_linesFrom h).1 hL).2.1
    omega
  | case2 => exact List.Pairwise.nil

/-- The loop starts at the line of the first byte, so that it yields every line that ends behind
the first byte and begins below the end. -/
theorem mem_linesFrom_alignDown {start stop L : Int} (h : (0 : Int) < 2 ^ k) :
    L ∈ linesFrom h stop (alignDown start (2 ^ k)) ↔
      2 ^ k ∣ L ∧ start < L + 2 ^ k ∧ L < stop := by
  rw [mem_linesFrom, alignDown_two_pow, dvd_sub_left (Int.dvd_mul_left _ _)]
  apply and_congr_right
  rintro ⟨q, rfl⟩
  rw [Int.mul_comm (2 ^ k) q, mul_le_mul_iff_of_pos_right h, ← Int.lt_add_one_iff,
    Int.ediv_lt_iff_lt_mul h, Int.add_mul, Int.one_mul]

/-- A line shares a byte with a range that is not empty if each begins below the end of the
other. -/
theorem nonempty_inter_iff {L start size lineSize : Int} (hsize : 0 < size) (hline : 0 < lineSize) :
    (Set.Ico L (L + lineSize) ∩ Set.Ico start (start + size)).Nonempty ↔
      start < L + lineSize ∧ L < start + size := by
  rw [Set.Ico_inter_Ico, Set.nonempty_Ico, max_lt_iff, lt_min_iff, lt_min_iff]
  omega

/-- An address is inside a line, behind its start, unless it is the start of a line. -/
theorem exists_line_inside_iff {start lineSize : Int} (hline : 0 < lineSize) :
    (∃ L, lineSize ∣ L ∧ L < start ∧ start < L + lineSize) ↔ ¬lineSize ∣ start := by
  constructor
  · rintro ⟨_, ⟨q, rfl⟩, hlt, hgt⟩ ⟨r, rfl⟩
    rw [← mul_add_one] at hgt
    have hqr := Int.lt_of_mul_lt_mul_left hlt hline.le
    have hrq := Int.lt_of_mul_lt_mul_left hgt hline.le
    omega
  · intro hdvd
    have hlt := Int.lt_ediv_add_one_mul_self start hline
    rw [Int.add_mul, Int.one_mul] at hlt
    refine ⟨start / lineSize * lineSize, Int.dvd_mul_left _ _, ?_, hlt⟩
    refine lt_of_le_of_ne (Int.ediv_mul_le start hline.ne') fun heq => hdvd ?_
    rw [← heq]
    exact Int.dvd_mul_left _ _

/-- **The lines of a range.**  The search for the lines of a range of code ends and lists lines in
ascending order, none of them twice.  They are those that share a byte with the range and, for an
empty range, the line in which it begins, unless it begins at the start of a line; only there is
the list of an empty range empty. -/
theorem linesOfRange_touched (start size lineSize : Int) (hsize : 0 ≤ size)
    (hline : ∃ k : Nat, lineSize = 2 ^ k) :
    ∃ lines, linesOfRange start size lineSize = .ok lines ∧ lines.Pairwise (· < ·) ∧
      (∀ L, L ∈ lines ↔ lineSize ∣ L ∧
        ((Set.Ico L (L + lineSize) ∩ Set.Ico start (start + size)).Nonempty ∨
          size = 0 ∧ L < start ∧ start < L + lineSize)) ∧
      (size = 0 → (lines = [] ↔ lineSize ∣ start)) := by
  have hpow := isPowerOfTwo_iff.2 hline
  obtain ⟨k, rfl⟩ := hline
  have hpos := pos_of_isPowerOfTwo hpow
  refine ⟨_, dif_pos hpow, pairwise_linesFrom hpos _ _, fun L => ?_, fun hzero => ?_⟩
  · rw [mem_linesFrom_alignDown hpos]
    apply and_congr_right
    intro _
    rcases hsize.eq_or_lt with rfl | hsize
    · simp [and_comm]
    · simp [nonempty_inter_iff hsize hpos, hsize.ne']
  · rw [List.eq_nil_iff_forall_not_mem, hzero, Int.add_zero, ← not_iff_not,
      ← exists_line_inside_iff hpos]
    simp [mem_linesFrom_alignDown hpos, and_comm]

-- A range around the address 0, and two empty ones of which the second begins inside a line.
theorem linesOfRange_touched_straddling :
    (∃ lines, linesOfRange (-20) 33 16 = .ok lines ∧ -32 ∈ lines ∧ 0 ∈ lines ∧ 16 ∉ lines) ∧
    linesOfRange 4096 0 16 = .ok [] ∧ linesOfRange 4100 0 16 ≠ .ok [] := by
  have hline : ∃ k : Nat, (16 : Int) = 2 ^ k := ⟨4, rfl⟩
  obtain ⟨lines, hlines, -, hmem, -⟩ := linesOfRange_touched (-20) 33 16 (by decide) hline
  obtain ⟨none, hnone, -, -, hempty⟩ := linesOfRange_touched 4096 0 16 (by decide) hline
  obtain ⟨one, hone, -, -, hinside⟩ := linesOfRange_touched 4100 0 16 (by decide) hline
  refine ⟨⟨lines, hlines, ?_, ?_, ?_⟩, ?_, ?_⟩
  · exact (hmem _).2 ⟨by decide, .inl ⟨-20, by decide, by decide⟩⟩
  · exact (hmem _).2 ⟨by decide, .inl ⟨0, by decide, by decide⟩⟩
  · rw [hmem, nonempty_inter_iff (by decide) (by decide)]
    decide
  · rw [hnone, (hempty rfl).2 (by decide)]
  · rw [hone, ne_eq, Except.ok.injEq, hinside rfl]
    decide

end Residency
