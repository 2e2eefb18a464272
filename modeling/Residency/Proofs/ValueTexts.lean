/-
Residency/Proofs/ValueTexts.lean

The texts of values: integer literals and words in any letter case.  `Literal n w` says that
`w` is a text of the integer `n`, and `InAnyCase word w` that `w` is the word up to letter
case.  Such texts are made of plain characters (`Plain`), which no reader drops or replaces,
so each reader reads them for what they say.
-/
import Residency.Settings.Basic
import Residency.Proofs.Tokens

namespace Residency

namespace Text

/-! ### Plain characters -/

/-- The printable ASCII characters, apart from the space and the mark of a comment. -/
def Plain (c : Char) : Prop :=
  0x20 < c.toNat ∧ c.toNat < 0x7F ∧ c ≠ '#'

instance (c : Char) : Decidable (Plain c) :=
  inferInstanceAs (Decidable (0x20 < c.toNat ∧ c.toNat < 0x7F ∧ c ≠ '#'))

/-- A plain character is no white space. -/
theorem Plain.isOuterSpace {c : Char} (h : Plain c) : isOuterSpace c = false := by
  obtain ⟨hlow, hhigh, -⟩ := h
  simp only [Text.isOuterSpace, isSpace, Bool.or_eq_false_iff, Bool.and_eq_false_iff,
    decide_eq_false_iff_not, beq_eq_false_iff_ne]
  omega

theorem Plain.isLiteralSpace {c : Char} (h : Plain c) : isLiteralSpace c = false := by
  have hne : c ≠ ' ' := by
    rintro rfl
    exact absurd h.1 (by decide)
  obtain ⟨hlow, -, -⟩ := h
  simp only [Text.isLiteralSpace, Bool.or_eq_false_iff, Bool.and_eq_false_iff,
    decide_eq_false_iff_not, beq_eq_false_iff_ne]
  exact ⟨hne, by omega⟩

/-- A plain character stands for itself. -/
theorem Plain.plainForm {c : Char} (h : Plain c) : plainForm c = c := by
  rw [Text.plainForm, if_pos h.2.1]

/-- A text without outer white space is not changed by trimming. -/
theorem trimBy_eq_self {p : Char → Bool} {w : List Char} (h : ∀ c ∈ w, p c = false) :
    trimBy p w = w :=
  trimBy_eq_iff.2 ⟨[], [], by simp, List.forall_mem_nil _, List.forall_mem_nil _,
    fun c hc => h c (List.mem_of_mem_head? hc), fun c hc => h c (List.mem_of_mem_getLast? hc)⟩

/-! ### Integer literals -/

/-- The texts of a natural number: decimal digits without a needless zero in front, or
hexadecimal digits behind a mark. -/
inductive Magnitude : Nat → List Char → Prop
  | decimal {ds : List Char} (hds : Word (IsDigit 10) ds)
      (hhead : ds.head? = some '0' → ds = ['0']) : Magnitude (denoted 10 ds) ds
  | marked {mark : Char} {ds : List Char} (hmark : mark = 'x' ∨ mark = 'X')
      (hds : Word (IsDigit 16) ds) : Magnitude (denoted 16 ds) ('0' :: mark :: ds)

/-- The texts of an integer. -/
inductive Literal : Int → List Char → Prop
  | unsigned {n : Nat} {w : List Char} (h : Magnitude n w) : Literal n w
  | negated {n : Nat} {w : List Char} (h : Magnitude n w) : Literal (-n) ('-' :: w)

theorem ascii_of_isDigit {base : Nat} {c : Char} (h : IsDigit base c) : c.toNat < 128 := by
  by_contra hc
  exact not_isDigit_of_not_ascii hc base h

/-- Digits are plain. -/
theorem plain_of_isDigit {base : Nat} (hbase : base = 10 ∨ base = 16) {c : Char}
    (h : IsDigit base c) : Plain c := by
  refine forall_ascii (P := fun c => IsDigit base c → Plain c) ?_ (ascii_of_isDigit h) h
  rcases hbase with rfl | rfl <;> decide +kernel

theorem eq_zero_of_digitValue {c : Char} (h : IsDigit 10 c) (hc : digitValue c = 0) : c = '0' :=
  forall_ascii (P := fun c => IsDigit 10 c → digitValue c = 0 → c = '0') (by decide +kernel)
    (ascii_of_isDigit h) h hc

/-- A magnitude is written in plain characters. -/
theorem Magnitude.plain {n : Nat} {w : List Char} (h : Magnitude n w) : ∀ c ∈ w, Plain c := by
  cases h with
  | decimal hds => exact fun c hc => plain_of_isDigit (.inl rfl) (hds.2 c hc)
  | marked hmark hds =>
    intro c hc
    rcases List.mem_cons.1 hc with rfl | hc
    · decide
    · rcases List.mem_cons.1 hc with rfl | hc
      · rcases hmark with rfl | rfl <;> decide
      · exact plain_of_isDigit (.inr rfl) (hds.2 c hc)

/-- So is a literal. -/
theorem Literal.plain {n : Int} {w : List Char} (h : Literal n w) : ∀ c ∈ w, Plain c := by
  cases h with
  | unsigned h => exact h.plain
  | negated h =>
    intro c hc
    rcases List.mem_cons.1 hc with rfl | hc
    · decide
    · exact h.plain c hc

/-- A word of digits is read as a run of digits. -/
theorem digitRun?_of_word {base : Nat} (hbase : base = 10 ∨ base = 16) {ds : List Char}
    (hds : Word (IsDigit base) ds) : digitRun? base ds = some (ds.map digitValue) := by
  obtain ⟨hne, hall⟩ := hds
  induction ds with
  | nil => exact absurd rfl hne
  | cons c ds ih =>
    have hc : digit? base c = some (digitValue c) := by
      rw [digit?_eq hbase, if_pos (hall c List.mem_cons_self)]
    cases ds with
    | nil => simp [digitRun?, hc]
    | cons d ds =>
      have hd : d ≠ '_' := by
        rintro rfl
        have hdigit := hall '_' (by simp)
        rcases hbase with rfl | rfl <;> revert hdigit <;> decide
      have hrest := ih (List.cons_ne_nil d ds) fun e he => hall e (List.mem_cons_of_mem c he)
      rw [digitRun?, hc, hrest]
      · rfl
      · exact List.cons_ne_nil d ds
      · exact fun cs h => hd (List.cons.inj h).1

/-- A decimal literal without a needless zero is as long as the number. -/
theorem length_le_of_isWritable {ds : List Char} (hds : Word (IsDigit 10) ds)
    (hhead : ds.head? = some '0' → ds = ['0']) (h : isWritable (denoted 10 ds : Nat) = true) :
    ds.length ≤ maxDecimalDigits := by
  obtain ⟨c, ds, rfl⟩ := List.exists_cons_of_ne_nil hds.1
  rw [isWritable, decide_eq_true_eq, Int.natAbs_natCast] at h
  by_cases hc : digitValue c = 0
  · obtain rfl := eq_zero_of_digitValue (hds.2 c List.mem_cons_self) hc
    rw [hhead rfl]
    decide
  · -- The first digit counts for a power of ten that the number reaches.
    have hpow : 10 ^ (c :: ds).length ≤ 10 * denoted 10 (c :: ds) := by
      have hlast : ((c :: ds).map digitValue).reverse.getLast (by simp) ≠ 0 := by simpa using hc
      simpa [denoted] using Nat.pow_length_le_mul_ofDigits (b := 8) (by simp) hlast
    have hlength : ∀ m, denoted 10 (c :: ds) < 10 ^ m → (c :: ds).length ≤ m := by
      intro m hm
      have hlt : 10 ^ (c :: ds).length < 10 ^ (m + 1) := by
        rw [Nat.pow_succ]
        omega
      exact Nat.le_of_lt_succ ((Nat.pow_lt_pow_iff_right (by decide)).1 hlt)
    rw [Nat.length_toDigits_le_iff (by decide) (by decide)] at h
    exact hlength _ h

/-- A decimal numeral without a leading zero, and not too long, is read. -/
theorem decimal?_of_word {ds : List Char} (hds : Word (IsDigit 10) ds)
    (hhead : ds.head? = some '0' → ds = ['0']) (hlength : ds.length ≤ maxDecimalDigits) :
    decimal? ds = some (denoted 10 ds) := by
  have hzero : ¬((ds.map digitValue).head? = some 0 && (ds.map digitValue).any (· ≠ 0)) = true := by
    intro h
    rw [Bool.and_eq_true, decide_eq_true_eq, List.head?_map, Option.map_eq_some_iff] at h
    obtain ⟨⟨c, hc, hvalue⟩, hany⟩ := h
    obtain rfl := eq_zero_of_digitValue (hds.2 c (List.mem_of_mem_head? hc)) hvalue
    rw [hhead hc] at hany
    exact absurd hany (by decide)
  rw [decimal?, digitRun?_of_word (.inl rfl) hds, Option.bind_eq_bind, Option.bind_some,
    if_neg (by simpa using hlength), if_neg hzero, ofDigits_eq]
  rfl

/-- A word of hexadecimal digits is read behind its mark. -/
theorem marked?_of_word {ds : List Char} (hds : Word (IsDigit 16) ds) :
    marked? 16 ds = some (denoted 16 ds) := by
  have hbody : ∀ rest, ds ≠ '_' :: rest := by
    rintro rest rfl
    exact absurd (hds.2 '_' List.mem_cons_self) (by decide)
  unfold marked?
  split
  · exact absurd rfl (hbody _)
  · show (digitRun? 16 ds).map (ofDigits 16) = _
    rw [digitRun?_of_word (.inr rfl) hds, Option.map_some, ofDigits_eq]
    rfl

/-- A magnitude that can be written is read as its number. -/
theorem magnitude?_of_magnitude {n : Nat} {w : List Char} (h : Magnitude n w)
    (hn : isWritable n = true) : magnitude? w = some n := by
  cases h with
  | decimal hds hhead =>
    have hdecimal := decimal?_of_word hds hhead (length_le_of_isWritable hds hhead hn)
    unfold magnitude?
    split
    · cases hhead rfl
    · exact hdecimal
  | marked hmark hds =>
    have hbase : ∀ c, c = 'x' ∨ c = 'X' → baseOfMark? c = some 16 := by
      rintro c (rfl | rfl) <;> rfl
    rw [magnitude?, hbase _ hmark]
    exact marked?_of_word hds

/-- A literal starts with a digit or with its sign. -/
theorem Magnitude.exists_cons {n : Nat} {w : List Char} (h : Magnitude n w) :
    ∃ c cs, w = c :: cs ∧ IsDigit 10 c := by
  cases h with
  | decimal hds =>
    obtain ⟨c, cs, rfl⟩ := List.exists_cons_of_ne_nil hds.1
    exact ⟨c, cs, rfl, hds.2 c List.mem_cons_self⟩
  | marked hmark hds => exact ⟨'0', _, rfl, by decide⟩

/-- A literal whose number can be written is read as this number. -/
theorem signed?_of_literal {n : Int} {w : List Char} (h : Literal n w) (hn : isWritable n = true) :
    signed? w = some n := by
  cases h with
  | unsigned h =>
    have hmagnitude := magnitude?_of_magnitude h hn
    obtain ⟨c, cs, rfl, hc⟩ := h.exists_cons
    unfold signed?
    split
    · rename_i heq
      obtain ⟨rfl, -⟩ := List.cons.inj heq
      exact absurd hc (by decide)
    · rename_i heq
      obtain ⟨rfl, -⟩ := List.cons.inj heq
      exact absurd hc (by decide)
    · rw [hmagnitude]
      rfl
  | @negated k w h =>
    have hk : isWritable k = true := by
      rw [isWritable, Int.natAbs_neg] at hn
      exact hn
    rw [signed?, magnitude?_of_magnitude h hk]
    rfl

/-- An integer is read from any of its texts. -/
theorem integer?_of_literal {n : Int} {w : List Char} (h : Literal n w)
    (hn : isWritable n = true) : integer? (String.ofList w) = some n := by
  have hmap : w.map plainForm = w := by
    conv_rhs => rw [← List.map_id w]
    exact List.map_congr_left fun c hc => (h.plain c hc).plainForm
  rw [integer?, String.toList_ofList, hmap,
    trimBy_eq_self fun c hc => (h.plain c hc).isLiteralSpace, signed?_of_literal h hn]

/-! ### Words -/

/-- The word, with each letter in either case. -/
def InAnyCase (word : String) (w : List Char) : Prop :=
  w.map Char.toLower = word.toList.map Char.toLower

theorem toUpper_toLower_of_ascii {c : Char} (hc : c.toNat < 128) :
    c.toLower.toUpper = c.toUpper :=
  forall_ascii (P := fun c => c.toLower.toUpper = c.toUpper) (by decide +kernel) hc

theorem upperForm_of_ascii {c : Char} (hc : c.toNat < 128) : upperForm c = [c.toUpper] :=
  forall_ascii (P := fun c => upperForm c = [c.toUpper]) (by decide +kernel) hc

theorem lowerForm_of_ascii {c : Char} (hc : c.toNat < 128) : lowerForm c = c.toLower :=
  forall_ascii (P := fun c => lowerForm c = c.toLower) (by decide +kernel) hc

/-- A character whose small form is plain is plain. -/
theorem plain_of_toLower {c : Char} (h : Plain c.toLower) : Plain c := by
  by_cases hc : c.toNat < 128
  · exact forall_ascii (P := fun c => Plain c.toLower → Plain c) (by decide +kernel) hc h
  · rwa [toLower_of_not_ascii hc] at h

namespace InAnyCase

variable {word : String} {w : List Char} (h : InAnyCase word w)
  (hword : ∀ c ∈ word.toList.map Char.toLower, Plain c)
include h hword

theorem plain : ∀ c ∈ w, Plain c := by
  intro c hc
  refine plain_of_toLower (hword _ ?_)
  rw [← h]
  exact List.mem_map_of_mem hc

/-- A word in any case is in ASCII. -/
theorem ascii : ∀ c ∈ w, c.toNat < 128 :=
  fun c hc => Nat.lt_trans (plain h hword c hc).2.1 (by decide)

theorem trim_eq : trim w = w :=
  trimBy_eq_self fun c hc => (plain h hword c hc).isOuterSpace

/-- In capitals all cases of a word are the same. -/
theorem upper_eq : upper w = (word.toList.map Char.toLower).map Char.toUpper := by
  calc upper w = w.flatMap fun c => [c.toUpper] :=
        List.flatMap_congr fun c hc => upperForm_of_ascii (ascii h hword c hc)
    _ = w.map fun c => c.toLower.toUpper := by
        rw [← List.map_eq_flatMap]
        exact List.map_congr_left fun c hc =>
          (toUpper_toLower_of_ascii (ascii h hword c hc)).symm
    _ = (word.toList.map Char.toLower).map Char.toUpper := by
        rw [← h, List.map_map]
        rfl

/-- In small letters all cases of a word are the same. -/
theorem lower_eq : lower w = word.toList.map Char.toLower := by
  rw [← h]
  exact List.map_congr_left fun c hc => lowerForm_of_ascii (ascii h hword c hc)

end InAnyCase

end Text

open Text

theorem MemoryType.plain_word (m : MemoryType) :
    ∀ c ∈ m.word.toList.map Char.toLower, Plain c := by
  cases m <;> simp [MemoryType.word, Plain]

/-- The word for a kind of memory is read in any case. -/
theorem MemoryType.ofText_of_inAnyCase {m : MemoryType} {w : List Char} (h : InAnyCase m.word w) :
    MemoryType.ofText (String.ofList w) = .ok m := by
  have hword : String.ofList ((m.word.toList.map Char.toLower).map Char.toUpper) = m.word := by
    cases m <;> decide +kernel
  have hfind : (MemoryType.all.find? fun m' => m'.word == m.word) = some m := by
    cases m <;> decide +kernel
  simp only [MemoryType.ofText, String.toList_ofList, h.trim_eq m.plain_word,
    h.upper_eq m.plain_word, hword, hfind]

theorem PolicyKind.plain_word (p : PolicyKind) :
    ∀ c ∈ p.word.toList.map Char.toLower, Plain c := by
  cases p <;> simp [PolicyKind.word, Plain]

/-- The word for a policy is read in any case. -/
theorem PolicyKind.ofText_of_inAnyCase {p : PolicyKind} {w : List Char} (h : InAnyCase p.word w) :
    PolicyKind.ofText (String.ofList w) = .ok p := by
  have hword : String.ofList ((p.word.toList.map Char.toLower).map Char.toUpper) = p.word := by
    cases p <;> decide +kernel
  have hfind : (PolicyKind.all.find? fun p' => p'.word == p.word) = some p := by
    cases p <;> decide +kernel
  simp only [PolicyKind.ofText, String.toList_ofList, h.trim_eq p.plain_word,
    h.upper_eq p.plain_word, hword, hfind]

namespace Options

/-- The words for a truth value. -/
def words : Bool → List String
  | true => yesWords
  | false => noWords

theorem plain_words {b : Bool} {word : String} (h : word ∈ words b) :
    ∀ c ∈ word.toList.map Char.toLower, Plain c := by
  cases b <;>
    simp only [words, yesWords, noWords, List.mem_cons, List.not_mem_nil, or_false] at h <;>
    rcases h with rfl | rfl | rfl | rfl <;> simp [Plain]

theorem word_ne_nil {b : Bool} {word : String} (h : word ∈ words b) : word.toList ≠ [] := by
  cases b <;>
    simp only [words, yesWords, noWords, List.mem_cons, List.not_mem_nil, or_false] at h <;>
    rcases h with rfl | rfl | rfl | rfl <;> simp

theorem toLower_words {b : Bool} {word : String} (h : word ∈ words b) :
    String.ofList (word.toList.map Char.toLower) = word := by
  cases b <;>
    simp only [words, yesWords, noWords, List.mem_cons, List.not_mem_nil, or_false] at h <;>
    rcases h with rfl | rfl | rfl | rfl <;> decide +kernel

/-- The words for a truth value are read in any case. -/
theorem boolean_of_inAnyCase {b : Bool} {word : String} (hword : word ∈ words b) {w : List Char}
    (h : InAnyCase word w) (key : String) : boolean key (String.ofList w) = .ok b := by
  have hplain := plain_words hword
  simp only [boolean, String.toList_ofList, h.trim_eq hplain, h.lower_eq hplain,
    toLower_words hword]
  cases b with
  | true => exact if_pos hword
  | false =>
    have hno : ∀ word ∈ noWords, word ∉ yesWords := by simp [yesWords, noWords]
    rw [if_neg (hno word hword)]
    exact if_pos hword

end Options

end Residency
