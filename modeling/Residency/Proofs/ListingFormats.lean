/-
Residency/Proofs/ListingFormats.lean

The two formats of a listing say the same.  Functions in ascending order of their addresses,
with the address behind the last one, can be listed with their sizes or with their addresses
alone.  Whatever is added in blanks, comments and empty lines, both texts are read as the same
list of functions and make the same table (`Listing.formats_agree`).

`States` is the relation between a text and its statements: what stands around them is left
to the line language.  `printed` shows that every list of statements has a text.

The end tag has different parts in the two formats.  With sizes it only stops the reader;
without them it also gives the last function its end, since a function reaches to the next
statement (`bound`).
-/
import Residency.Proofs.Listings
import Residency.Proofs.ValueTexts

namespace Residency

/-! ### Numerals -/

namespace Text

variable {base n : Nat}

/-- A digit is written as a digit character and read back as itself. -/
theorem isDigit_digitChar (hbase : base = 10 ∨ base = 16) (hn : n < base) :
    IsDigit base n.digitChar ∧ digitValue n.digitChar = n := by
  rcases hbase with rfl | rfl <;> revert n <;> decide

/-- A digit at the end counts once and moves the others up. -/
theorem denoted_concat (base : Nat) (ds : List Char) (c : Char) :
    denoted base (ds ++ [c]) = base * denoted base ds + digitValue c := by
  rw [denoted, denoted, List.map_append, List.map_singleton, List.reverse_append,
    List.reverse_singleton, List.singleton_append, Nat.ofDigits_cons]
  exact Nat.add_comm _ _

/-- Every number is written as a word of digits. -/
theorem word_toDigits (hbase : base = 10 ∨ base = 16) (n : Nat) :
    Word (IsDigit base) (Nat.toDigits base n) := by
  refine ⟨Nat.toDigits_ne_nil, ?_⟩
  induction n using Nat.strongRecOn with
  | ind n ih =>
    have hone : 1 < base := by omega
    rw [Nat.toDigits_eq_if hone]
    split
    · rename_i hlt
      rw [List.forall_mem_singleton]
      exact (isDigit_digitChar hbase hlt).1
    · have hsmall : n / base < n := Nat.div_lt_self (by omega) hone
      rw [List.forall_mem_append, List.forall_mem_singleton]
      exact ⟨ih _ hsmall, (isDigit_digitChar hbase (Nat.mod_lt n (by omega))).1⟩

/-- A number is read back as itself. -/
theorem denoted_toDigits (hbase : base = 10 ∨ base = 16) (n : Nat) :
    denoted base (Nat.toDigits base n) = n := by
  induction n using Nat.strongRecOn with
  | ind n ih =>
    have hone : 1 < base := by omega
    rw [Nat.toDigits_eq_if hone]
    split
    · rename_i hlt
      rw [← List.nil_append [n.digitChar], denoted_concat, (isDigit_digitChar hbase hlt).2]
      simp [denoted]
    · have hsmall : n / base < n := Nat.div_lt_self (by omega) hone
      rw [denoted_concat, ih _ hsmall, (isDigit_digitChar hbase (Nat.mod_lt n (by omega))).2]
      exact Nat.div_add_mod n base

end Text

open Text

namespace Listing

/-! ### One table in two formats -/

/-- Where the function in front of the others ends: at the next one or at the last address. -/
def bound (fs : List (Nat × List Char)) (last : Nat) : Nat :=
  (fs.head?.map Prod.fst).getD last

/-- The functions, of which each reaches to the next one. -/
def extents : List (Nat × List Char) → Nat → List ListedFunction
  | [], _ => []
  | f :: fs, last => ⟨f.1, bound fs last - f.1, String.ofList f.2⟩ :: extents fs last

/-- The functions with their sizes, and the end tag. -/
def sizedStatements : List (Nat × List Char) → Nat → List Statement
  | [], last => [.sized last endTag ['0']]
  | f :: fs, last =>
    .sized f.1 f.2 (Nat.toDigits 10 (bound fs last - f.1)) :: sizedStatements fs last

/-- The functions without sizes, and the end tag. -/
def startStatements : List (Nat × List Char) → Nat → List Statement
  | [], last => [.start last endTag]
  | f :: fs, last => .start f.1 f.2 :: startStatements fs last

/-- The addresses ascend, up to the last one. -/
def Ascending (fs : List (Nat × List Char)) (last : Nat) : Prop :=
  (fs.map Prod.fst ++ [last]).Pairwise (· < ·)

section

variable {f : Nat × List Char} {fs : List (Nat × List Char)} {last : Nat}

theorem bound_mem (fs : List (Nat × List Char)) (last : Nat) :
    bound fs last ∈ fs.map Prod.fst ++ [last] := by
  cases fs <;> simp [bound]

/-- The first function ends before the others, which are in ascending order. -/
theorem Ascending.of_cons (h : Ascending (f :: fs) last) :
    f.1 < bound fs last ∧ Ascending fs last := by
  obtain ⟨hlt, hrest⟩ := List.pairwise_cons.1 h
  exact ⟨hlt _ (bound_mem fs last), hrest⟩

/-- What holds of the end tag and of each function holds of all statements with sizes. -/
theorem forall_mem_sizedStatements {P : Statement → Prop} (hend : P (.sized last endTag ['0']))
    (hfs : ∀ f ∈ fs, ∀ n, P (.sized f.1 f.2 (Nat.toDigits 10 n))) :
    ∀ s ∈ sizedStatements fs last, P s := by
  induction fs with
  | nil => exact List.forall_mem_singleton.2 hend
  | cons f fs ih =>
    obtain ⟨hf, hfs⟩ := List.forall_mem_cons.1 hfs
    exact List.forall_mem_cons.2 ⟨hf _, ih hfs⟩

/-- What holds of the end tag and of each function holds of all statements without sizes. -/
theorem forall_mem_startStatements {P : Statement → Prop} (hend : P (.start last endTag))
    (hfs : ∀ f ∈ fs, P (.start f.1 f.2)) : ∀ s ∈ startStatements fs last, P s := by
  induction fs with
  | nil => exact List.forall_mem_singleton.2 hend
  | cons f fs ih =>
    obtain ⟨hf, hfs⟩ := List.forall_mem_cons.1 hfs
    exact List.forall_mem_cons.2 ⟨hf, ih hfs⟩

/-- The first statement gives the function in front of it its end. -/
theorem startStatements_eq_cons (fs : List (Nat × List Char)) (last : Nat) :
    ∃ s ss, startStatements fs last = s :: ss ∧ s.address = bound fs last := by
  cases fs with
  | nil => exact ⟨_, _, rfl, rfl⟩
  | cons f fs => exact ⟨_, _, rfl, rfl⟩

/-- The sizes have few enough digits if the numbers can be written. -/
theorem length_le_of_mem (hfs : Ascending fs last)
    (hsizes : ∀ f ∈ extents fs last, isWritable f.size = true) {address : Nat}
    {name digits : List Char} (h : .sized address name digits ∈ sizedStatements fs last) :
    digits.length ≤ maxDecimalDigits := by
  induction fs with
  | nil =>
    obtain ⟨-, -, rfl⟩ := Statement.sized.inj (List.mem_singleton.1 h)
    decide
  | cons f fs ih =>
    obtain ⟨hlt, hrest⟩ := hfs.of_cons
    obtain ⟨hsize, hsizes⟩ := List.forall_mem_cons.1 hsizes
    rcases List.mem_cons.1 h with heq | h
    · obtain ⟨-, -, rfl⟩ := Statement.sized.inj heq
      have habs : ((bound fs last : Int) - f.1).natAbs = bound fs last - f.1 := by omega
      rw [isWritable, habs, decide_eq_true_eq] at hsize
      exact hsize
    · exact ih hrest hsizes h

/-! ### What the statements list -/

variable {fault : Nat → String → Fault} {xs : List (Nat × Statement)}

/-- A function in front that has a positive size and is not the end tag passes the check. -/
theorem checked_cons_extent (hlt : f.1 < bound fs last) (hname : f.2 ≠ endTag) (line : Nat)
    {ys : List (Nat × ListedFunction)} (hys : checked fault ys = .ok (extents fs last)) :
    checked fault ((line, ⟨f.1, bound fs last - f.1, String.ofList f.2⟩) :: ys) =
      .ok (extents (f :: fs) last) := by
  have hpos : ¬(bound fs last : Int) - f.1 ≤ 0 := by omega
  rw [checked_cons, if_neg (mt ofList_eq_endTag_iff.1 hname), if_neg hpos, hys]
  rfl

/-- The statements with sizes pass the check and give the extents of the functions. -/
theorem checked_sized (hfs : Ascending fs last) (hnames : ∀ f ∈ fs, f.2 ≠ endTag)
    (hxs : xs.map Prod.snd = sizedStatements fs last) :
    checked fault (sizedExtents xs) = .ok (extents fs last) := by
  induction fs generalizing xs with
  | nil =>
    obtain ⟨⟨line, s⟩, ys, rfl, rfl, -⟩ := List.map_eq_cons_iff.1 hxs
    have hextents : sizedExtents ((line, .sized last endTag ['0']) :: ys) =
        (line, ⟨last, denoted 10 ['0'], String.ofList endTag⟩) :: sizedExtents ys := rfl
    rw [hextents, checked_cons, if_pos (ofList_eq_endTag_iff.2 rfl)]
    rfl
  | cons f fs ih =>
    obtain ⟨⟨line, s⟩, ys, rfl, rfl, hys⟩ := List.map_eq_cons_iff.1 hxs
    obtain ⟨hlt, hrest⟩ := hfs.of_cons
    obtain ⟨hname, hnames⟩ := List.forall_mem_cons.1 hnames
    have hsize : ((denoted 10 (Nat.toDigits 10 (bound fs last - f.1)) : Nat) : Int) =
        bound fs last - f.1 := by
      rw [denoted_toDigits (.inl rfl)]
      omega
    have hextents : sizedExtents
        ((line, .sized f.1 f.2 (Nat.toDigits 10 (bound fs last - f.1))) :: ys) =
          (line, ⟨f.1, bound fs last - f.1, String.ofList f.2⟩) :: sizedExtents ys := by
      rw [← hsize]
      rfl
    rw [hextents]
    exact checked_cons_extent hlt hname line (ih hrest hnames hys)

/-- So do the statements without sizes. -/
theorem checked_start (hfs : Ascending fs last) (hnames : ∀ f ∈ fs, f.2 ≠ endTag)
    (hxs : xs.map Prod.snd = startStatements fs last) :
    checked fault (boundedExtents xs) = .ok (extents fs last) := by
  induction fs generalizing xs with
  | nil =>
    -- The end tag alone is followed by nothing.
    obtain ⟨x, ys, rfl, -, hys⟩ := List.map_eq_cons_iff.1 hxs
    obtain rfl := List.map_eq_nil_iff.1 hys
    rfl
  | cons f fs ih =>
    obtain ⟨⟨line, s⟩, ys, rfl, rfl, hys⟩ := List.map_eq_cons_iff.1 hxs
    obtain ⟨hlt, hrest⟩ := hfs.of_cons
    obtain ⟨hname, hnames⟩ := List.forall_mem_cons.1 hnames
    -- What follows is the next function or the end tag, and it begins where this one ends.
    obtain ⟨s, ss, hss, hbound⟩ := startStatements_eq_cons fs last
    obtain ⟨next, zs, rfl, rfl, -⟩ := List.map_eq_cons_iff.1 (hys.trans hss)
    have hextents : boundedExtents ((line, .start f.1 f.2) :: next :: zs) =
        (line, ⟨f.1, bound fs last - f.1, String.ofList f.2⟩) :: boundedExtents (next :: zs) := by
      rw [← hbound]
      rfl
    rw [hextents]
    exact checked_cons_extent hlt hname line (ih hrest hnames hys)

end

/-! ### Texts -/

/-- The text has the statements in this order, one to a line; blanks, comments and carriage
returns may stand around them, and lines without statement between them. -/
def States (text : String) (ss : List Statement) : Prop :=
  ∃ ls said, CutInto text.toList ls ∧ List.Forall₂ Line ls said ∧ said.reduceOption = ss

theorem map_snd_stated (said : List (Option Statement)) :
    (stated said).map Prod.snd = said.reduceOption := by
  have hsaid : (stated said).map Prod.snd = (numbered 1 said).filterMap (id ∘ Prod.snd) := by
    rw [stated, List.map_filterMap]
    refine List.filterMap_congr ?_
    rintro ⟨line, - | s⟩ - <;> rfl
  rw [hsaid, ← List.filterMap_map, map_snd_numbered]
  rfl

section

variable {text source : String} {fs : List (Nat × List Char)} {last : Nat} {ls : List (List Char)}
  {said : List (Option Statement)}

/-- A text whose lines can be read makes the statements on them. -/
theorem states_of_readLines {said : List (Nat × Option Statement)}
    (h : readLines Statement.ofLine? 1 (lines text.toList) = .ok said) :
    States text (said.map Prod.snd).reduceOption := by
  have hcut := cutInto_lines text.toList
  obtain ⟨said, hsaid, rfl⟩ := (decides_ofLine? hcut).readLines_eq_ok.1 h
  exact ⟨lines text.toList, said, hcut, hsaid, by rw [map_snd_numbered]⟩

/-- Lines whose sizes are short enough are legible. -/
theorem legible_of_said (hcut : CutInto text.toList ls) (hsaid : List.Forall₂ Line ls said)
    (hdigits : ∀ address name digits, .sized address name digits ∈ said.reduceOption →
      digits.length ≤ maxDecimalDigits) : Legible ls := by
  intro l hl address name digits hline
  obtain ⟨o, ho, hlo⟩ := exists_said_of_mem hsaid hl
  -- A line has one statement at most.
  have hread := (Statement.ofLine?_eq_some (hcut.unbroken l hl)).2 hline
  rw [(Statement.ofLine?_eq_some (hcut.unbroken l hl)).2 hlo] at hread
  obtain rfl := Option.some.inj hread
  exact hdigits address name digits (List.reduceOption_mem_iff.2 ho)

/-- A text with the statements with sizes is read as the extents. -/
theorem parse_of_states_sized (hfs : Ascending fs last) (hnames : ∀ f ∈ fs, f.2 ≠ endTag)
    (hsizes : ∀ f ∈ extents fs last, isWritable f.size = true)
    (h : States text (sizedStatements fs last)) (t : Journal) :
    (parse text source t).result = .ok (extents fs last) := by
  obtain ⟨ls, said, hcut, hsaid, heq⟩ := h
  have hmap : (stated said).map Prod.snd = sizedStatements fs last :=
    (map_snd_stated said).trans heq
  have hsized : ∀ s ∈ sizedStatements fs last, s.isSized = true :=
    forall_mem_sizedStatements rfl fun _ _ _ => rfl
  have hlegible : Legible ls := by
    refine legible_of_said hcut hsaid fun address name digits hmem => ?_
    rw [heq] at hmem
    exact length_le_of_mem hfs hsizes hmem
  rw [parse_of_sized hcut t hsaid hlegible]
  · exact checked_sized hfs hnames hmap
  · intro s hs
    exact hsized _ (hmap ▸ List.mem_map_of_mem hs)

/-- So is a text with the statements without sizes. -/
theorem parse_of_states_start (hfs : Ascending fs last) (hnames : ∀ f ∈ fs, f.2 ≠ endTag)
    (h : States text (startStatements fs last)) (t : Journal) :
    (parse text source t).result = .ok (extents fs last) := by
  obtain ⟨ls, said, hcut, hsaid, heq⟩ := h
  have hmap : (stated said).map Prod.snd = startStatements fs last :=
    (map_snd_stated said).trans heq
  have hstart : ∀ s ∈ startStatements fs last, s.isSized = false :=
    forall_mem_startStatements rfl fun _ _ => rfl
  have hlegible : Legible ls := by
    refine legible_of_said hcut hsaid fun address name digits hmem => ?_
    cases hstart _ (heq ▸ hmem)
  rw [parse_of_start hcut t hsaid hlegible]
  · exact checked_start hfs hnames hmap
  · intro s hs
    exact hstart _ (hmap ▸ List.mem_map_of_mem hs)

end

end Listing

/-! ### Plain texts -/

namespace Statement

/-- A character of a name in either format: in brackets, white space and the information
separators are no part of a name at its ends. -/
def LabelChar (c : Char) : Prop :=
  isOuterSpace c = false ∧ c ≠ '<' ∧ c ≠ '>' ∧ c ≠ '#'

/-- The statement can be printed. -/
def Printable : Statement → Prop
  | .sized _ name size => Word LabelChar name ∧ Word (IsDigit 10) size
  | .start _ name => Word LabelChar name

/-- The statement with single blanks. -/
def plain : Statement → List Char
  | .sized address name size =>
    ['0', 'x'] ++ Nat.toDigits 16 address ++ [' '] ++ name ++ [' '] ++ size
  | .start address name => Nat.toDigits 16 address ++ [' '] ++ ['<'] ++ name ++ ['>', ':']

theorem LabelChar.nameChar {c : Char} (h : LabelChar c) : NameChar c :=
  ⟨(Bool.or_eq_false_iff.1 h.1).1, h.2⟩

/-- The plain form of a statement is one of its forms. -/
theorem form_plain {s : Statement} (h : s.Printable) : s.Form s.plain := by
  have hblank : Blanks [' '] := List.forall_mem_singleton.2 (.inl rfl)
  cases s with
  | sized address name size =>
    obtain ⟨⟨hne, hname⟩, hsize⟩ := h
    have hform := Form.sized (.inl rfl) (word_toDigits (.inr rfl) address)
      ⟨List.cons_ne_nil _ _, hblank⟩ ⟨hne, fun c hc => (hname c hc).nameChar⟩
      ⟨List.cons_ne_nil _ _, hblank⟩ hsize
    rwa [denoted_toDigits (.inr rfl)] at hform
  | start address name =>
    obtain ⟨hne, hname⟩ := h
    have hstripped : Stripped name name :=
      trim_eq_iff.1 (trimBy_eq_self fun c hc => (hname c hc).1)
    have hform := Form.start (.inl rfl) (word_toDigits (.inr rfl) address) hblank
      ⟨hne, fun c hc => ⟨(hname c hc).2.1, (hname c hc).2.2.1⟩⟩ hstripped
    rwa [denoted_toDigits (.inr rfl)] at hform

theorem unbroken_plain {s : Statement} (h : s.Printable) : '\n' ∉ s.plain := by
  have hlabel : ∀ {name : List Char}, Word LabelChar name → '\n' ∉ name :=
    fun hname hmem => Bool.noConfusion (hname.2 _ hmem).1
  have haddress : ∀ address, '\n' ∉ Nat.toDigits 16 address := fun address hmem =>
    absurd ((word_toDigits (.inr rfl) address).2 _ hmem) (by decide)
  cases s with
  | sized address name size =>
    have hsize : '\n' ∉ size := fun hmem => absurd (h.2.2 _ hmem) (by decide)
    simp [plain, haddress, hlabel h.1, hsize]
  | start address name => simp [plain, haddress, hlabel h]

end Statement

namespace Listing

/-- The statements in plain form, one to a line. -/
def printed (ss : List Statement) : String :=
  String.ofList (joined (ss.map Statement.plain))

/-- The printed text makes the statements that were printed. -/
theorem states_printed {ss : List Statement} (h : ∀ s ∈ ss, s.Printable) :
    States (printed ss) ss := by
  have hunbroken : ∀ l ∈ ss.map Statement.plain, '\n' ∉ l :=
    List.forall_mem_map.2 fun s hs => Statement.unbroken_plain (h s hs)
  refine ⟨ss.map Statement.plain, ss.map some, ?_, ?_, ?_⟩
  · rw [printed, String.toList_ofList, cutInto_iff]
    simpa [lines] using lines_joined_append hunbroken []
  · rw [List.forall₂_map_left_iff, List.forall₂_map_right_iff, List.forall₂_same]
    intro s hs
    have hnone : Blanks [] := List.forall_mem_nil _
    have hline := Line.statement hnone (Statement.form_plain (h s hs)) hnone
      ⟨[], [], rfl, .inl rfl, .inl rfl⟩
    simpa using hline
  · simp [List.reduceOption]

theorem word_endTag : Word Statement.LabelChar endTag := by
  show Word Statement.LabelChar ['E', 'N', 'D', '_', 'T', 'A', 'G']
  simp [Word, Statement.LabelChar, isOuterSpace, isSpace]

end Listing

/-! ### Tables -/

/-- What a table knows of a function. -/
def RegisteredFunction.facts (f : RegisteredFunction) : Int × Int × Option String :=
  (f.address, f.size, f.name)

/-- What a listing says of a function. -/
def ListedFunction.facts (f : ListedFunction) : Int × Int × Option String :=
  (f.address, f.size, some f.name)

namespace FunctionTable

variable {table : FunctionTable} {text source : String} {fs : List ListedFunction}

/-- A function at a new address comes last. -/
theorem functions_insert_of_new {f : RegisteredFunction}
    (hnew : f.address ∉ table.functions.map fun g => g.address) :
    (table.insert f).functions = table.functions ++ [f] := by
  show put f table.functions = _
  rw [put, if_neg]
  simpa using hnew

/-- A function at a new address is added without a report. -/
theorem add_of_new {address size : Int} (hsize : 0 < size)
    (hnew : address ∉ table.functions.map fun g => g.address) (name : Option String)
    (t : Journal) :
    (table.add address size name t).result = .ok (table.insert ⟨address, size, name, hsize⟩) := by
  have hcontains : ¬table.contains address = true := by simpa [contains] using hnew
  rw [add, dif_pos hsize, if_neg hcontains]
  rfl

/-- Functions of which none is known yet come behind the others, in their order. -/
theorem addAll_of_new (hsizes : ∀ f ∈ fs, 0 < f.size)
    (hnew : (table.functions.map (fun g => g.address) ++ fs.map fun f => f.address).Nodup) :
    ∃ table', (∀ t, (table.addAll fs t).result = .ok table') ∧
      table'.blockSize = table.blockSize ∧
      table'.functions.map RegisteredFunction.facts =
        table.functions.map RegisteredFunction.facts ++ fs.map ListedFunction.facts := by
  induction fs generalizing table with
  | nil => exact ⟨table, fun t => Analysis.result_follow_nil.2 rfl, rfl, by simp⟩
  | cons f fs ih =>
    obtain ⟨hsize, hsizes⟩ := List.forall_mem_cons.1 hsizes
    have hf : f.address ∉ table.functions.map fun g => g.address := by
      intro hmem
      exact (List.nodup_append.1 hnew).2.2 _ hmem _ List.mem_cons_self rfl
    let g : RegisteredFunction := ⟨f.address, f.size, some f.name, hsize⟩
    have hfunctions : (table.insert g).functions = table.functions ++ [g] :=
      functions_insert_of_new hf
    have hrest : ((table.insert g).functions.map (fun g => g.address) ++
        fs.map fun f => f.address).Nodup := by
      rw [hfunctions]
      simpa [g] using hnew
    obtain ⟨table', hadd, hblock, hfacts⟩ := ih hsizes hrest
    refine ⟨table', fun t => ?_, hblock, ?_⟩
    · exact Analysis.result_follow_cons.2 ⟨_, add_of_new hsize hf _ t, hadd t⟩
    · rw [hfacts, hfunctions]
      simp [g, RegisteredFunction.facts, ListedFunction.facts]

/-- A table comes from what is read and from adding it. -/
theorem ofText_of_parse {t : Journal} {blockSize : Int} {table table' : FunctionTable}
    (hempty : empty blockSize = .ok table) (hparse : (Listing.parse text source t).result = .ok fs)
    (hadd : (table.addAll fs t).result = .ok table') :
    (ofText text blockSize source t).result = .ok table' := by
  refine Analysis.result_bind_eq_ok.2 ⟨table, hempty, ?_⟩
  refine Analysis.result_bind_eq_ok.2 ⟨fs, hparse, ?_⟩
  refine Analysis.result_bind_eq_ok.2 ⟨table', hadd, ?_⟩
  exact Analysis.result_note_bind rfl _

/-- A block size that is not positive is refused before anything is read. -/
theorem ofText_of_nonpos {blockSize : Int} (h : blockSize ≤ 0) (t : Journal) :
    (ofText text blockSize source t).result = refuse (.tableBlock blockSize) := by
  have hempty : empty blockSize = refuse (.tableBlock blockSize) := dif_neg (Int.not_lt.2 h)
  exact Analysis.result_bind_of_error ((Analysis.result_ofExcept _ t).trans hempty)

end FunctionTable

namespace Listing

/-- Functions that both formats can list, one behind the other up to the last address. -/
structure Layout (fs : List (Nat × List Char)) (last : Nat) : Prop where
  ascending : Ascending fs last
  labels : ∀ f ∈ fs, Word Statement.LabelChar f.2
  unended : ∀ f ∈ fs, f.2 ≠ endTag
  writable : ∀ f ∈ extents fs last, isWritable f.size = true

variable {fs : List (Nat × List Char)} {last : Nat}

/-- Functions in ascending order have positive sizes. -/
theorem size_pos_of_mem (hfs : Ascending fs last) {f : ListedFunction}
    (h : f ∈ extents fs last) : 0 < f.size := by
  induction fs with
  | nil => cases h
  | cons g fs ih =>
    obtain ⟨hlt, hrest⟩ := hfs.of_cons
    rcases List.mem_cons.1 h with rfl | h
    · show 0 < (bound fs last : Int) - g.1
      omega
    · exact ih hrest h

theorem addresses_extents (fs : List (Nat × List Char)) (last : Nat) :
    (extents fs last).map (fun f => f.address) = (fs.map Prod.fst).map Nat.cast := by
  induction fs with
  | nil => rfl
  | cons f fs ih => exact congrArg ((f.1 : Int) :: ·) ih

/-- Functions in ascending order have different addresses. -/
theorem nodup_extents (hfs : Ascending fs last) :
    ((extents fs last).map fun f => f.address).Nodup := by
  rw [addresses_extents]
  have hlt : (fs.map Prod.fst).Pairwise (· < ·) := (List.pairwise_append.1 hfs).1
  have hnodup : (fs.map Prod.fst).Nodup := hlt.imp fun h => Nat.ne_of_lt h
  exact hnodup.map Nat.cast_injective

/-- **A listing with sizes and one without are read alike.**  Both formats can state every
layout; and a text with sizes and one without that state the same layout list the same
functions, each up to the next one, and make the same table. -/
theorem formats_agree (h : Layout fs last) :
    (States (printed (sizedStatements fs last)) (sizedStatements fs last) ∧
      States (printed (startStatements fs last)) (startStatements fs last)) ∧
    ∀ text text', States text (sizedStatements fs last) →
      States text' (startStatements fs last) →
      (∀ source t, (parse text source t).result = .ok (extents fs last) ∧
        (parse text' source t).result = .ok (extents fs last)) ∧
      (∀ blockSize, 0 < blockSize → ∃ table : FunctionTable, table.blockSize = blockSize ∧
        table.functions.map RegisteredFunction.facts =
          (extents fs last).map ListedFunction.facts ∧
        ∀ source t, (FunctionTable.ofText text blockSize source t).result = .ok table ∧
          (FunctionTable.ofText text' blockSize source t).result = .ok table) ∧
      ∀ blockSize ≤ 0, ∀ source t,
        (FunctionTable.ofText text blockSize source t).result = refuse (.tableBlock blockSize) ∧
          (FunctionTable.ofText text' blockSize source t).result =
            refuse (.tableBlock blockSize) := by
  refine ⟨⟨?_, ?_⟩, fun text text' htext htext' => ?_⟩
  · exact states_printed (forall_mem_sizedStatements ⟨word_endTag, word_toDigits (.inl rfl) 0⟩
      fun f hf n => ⟨h.labels f hf, word_toDigits (.inl rfl) n⟩)
  · exact states_printed (forall_mem_startStatements word_endTag h.labels)
  have hsized : ∀ source t, (parse text source t).result = .ok (extents fs last) := fun _ t =>
    parse_of_states_sized h.ascending h.unended h.writable htext t
  have hstart : ∀ source t, (parse text' source t).result = .ok (extents fs last) := fun _ t =>
    parse_of_states_start h.ascending h.unended htext' t
  refine ⟨fun source t => ⟨hsized source t, hstart source t⟩, fun blockSize hpos => ?_, ?_⟩
  · let bare : FunctionTable := ⟨blockSize, [], hpos, List.nodup_nil⟩
    have hempty : FunctionTable.empty blockSize = .ok bare := dif_pos hpos
    have hnew : (bare.functions.map (fun g => g.address) ++
        (extents fs last).map fun f => f.address).Nodup := nodup_extents h.ascending
    obtain ⟨table, hadd, hblock, hfacts⟩ := FunctionTable.addAll_of_new
      (fun f hf => size_pos_of_mem h.ascending hf) hnew
    refine ⟨table, hblock, hfacts, fun source t => ⟨?_, ?_⟩⟩
    · exact FunctionTable.ofText_of_parse hempty (hsized source t) (hadd t)
    · exact FunctionTable.ofText_of_parse hempty (hstart source t) (hadd t)
  · intro blockSize hblock source t
    exact ⟨FunctionTable.ofText_of_nonpos hblock t, FunctionTable.ofText_of_nonpos hblock t⟩

/-- Two functions, of which the second one ends at address 36. -/
def sampleFunctions : List (Nat × List Char) :=
  [(16, ['a']), (32, ['b', '.', 'c'])]

/-- The functions with sizes, among comments and with different blanks and line ends. -/
def sizedSample : String :=
  "# main part\r\n 0X10\ta 16\r\n\n0x0020 b.c\t 4 # last\n0x24 END_TAG 0"

/-- The functions without sizes. -/
def startSample : String :=
  "10 <a>:\n\t0x20<b.c>:\r\n  # nothing\n24 < END_TAG >: #\n"

theorem formats_agree_sample :
    Layout sampleFunctions 36 ∧ States sizedSample (sizedStatements sampleFunctions 36) ∧
      States startSample (startStatements sampleFunctions 36) ∧
      ∀ source t, (parse sizedSample source t).result = .ok [⟨16, 16, "a"⟩, ⟨32, 4, "b.c"⟩] ∧
        (parse startSample source t).result = .ok [⟨16, 16, "a"⟩, ⟨32, 4, "b.c"⟩] := by
  have hlayout : Layout sampleFunctions 36 := by
    refine ⟨?_, ?_, by decide, by decide⟩
    · simp [sampleFunctions, Ascending]
    · simp [sampleFunctions, Word, Statement.LabelChar, isOuterSpace, isSpace]
  have hsized : States sizedSample (sizedStatements sampleFunctions 36) := by
    have hread : readLines Statement.ofLine? 1 (lines sizedSample.toList) =
        .ok [(1, none), (2, some (.sized 16 ['a'] ['1', '6'])), (3, none),
          (4, some (.sized 32 ['b', '.', 'c'] ['4'])), (5, some (.sized 36 endTag ['0']))] := by
      decide +kernel
    exact states_of_readLines hread
  have hstart : States startSample (startStatements sampleFunctions 36) := by
    have hread : readLines Statement.ofLine? 1 (lines startSample.toList) =
        .ok [(1, some (.start 16 ['a'])), (2, some (.start 32 ['b', '.', 'c'])), (3, none),
          (4, some (.start 36 endTag))] := by
      decide +kernel
    exact states_of_readLines hread
  exact ⟨hlayout, hsized, hstart, ((formats_agree hlayout).2 _ _ hsized hstart).1⟩

end Listing

end Residency
