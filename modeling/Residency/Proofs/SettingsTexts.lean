/-
Residency/Proofs/SettingsTexts.lean

Settings from their texts.  A text that gives each option on a line of its own is a list of
`Given` with the line of each (`Given.Written`), in any order.  `Describes` says which
settings such a list amounts to, and `ofText_of_written` that these are read from the text:
how a value is spelled, under which namespace, in which order and between which other options
makes no difference.
-/
import Residency.Proofs.OptionTexts
import Residency.Proofs.ValueTexts

namespace Residency

open Text

/-- An option of a text with what it gives, which is nothing if its value is left empty. -/
inductive Given where
  | memory (m : MemoryType)
  | size (n : Int)
  | policy (p : Option PolicyKind)
  | lineSize (n : Option Int)
  | blockSize (n : Option Int)
  | ignoreOutsized (b : Option Bool)
  /-- An option that is not about the memory. -/
  | extra (name value : List Char)

namespace Given

/-- The key of an option. -/
def key : Given → String
  | memory _ => Settings.memoryTypeKey
  | size _ => Settings.sizeKey
  | policy _ => Settings.policyKey
  | lineSize _ => Settings.lineSizeKey
  | blockSize _ => Settings.blockSizeKey
  | ignoreOutsized _ => Settings.ignoreOutsizedKey
  | extra name _ => String.ofList name

/-- The texts of what may be left empty. -/
def Spelling {α : Type} (Spells : α → List Char → Prop) : Option α → List Char → Prop
  | none, w => w = []
  | some a, w => Spells a w

/-- The texts of the value of an option. -/
def Spelled : Given → List Char → Prop
  | memory m => InAnyCase m.word
  | size n => Literal n
  | policy p => Spelling (fun p => InAnyCase p.word) p
  | lineSize n => Spelling Literal n
  | blockSize n => Spelling Literal n
  | ignoreOutsized b => Spelling (fun b w => ∃ word ∈ Options.words b, InAnyCase word w) b
  | extra _ value => (· = value)

/-- Numbers are short enough to be written; an option that is not about the memory has a key
without namespace and a value that is all in one line and has no outer white space. -/
def Proper : Given → Prop
  | size n | lineSize (some n) | blockSize (some n) => isWritable n = true
  | extra name value => Options.Key name ∧ '.' ∉ name ∧ String.ofList name ∉ Settings.ownKeys ∧
      (∀ c ∈ value, Options.ValueChar c) ∧ Stripped value value
  | _ => True

/-- The lines of an option: the key, with a namespace or without, and the value. -/
def Written (g : Given) (l : List Char) : Prop :=
  ∃ key gap gap' w, l = key ++ gap ++ ['='] ++ gap' ++ w ∧ Options.Key key ∧
    Options.Local key g.key.toList ∧ Blanks gap ∧ Blanks gap' ∧ g.Spelled w

/-- The option as it is passed on, if it is not about the memory. -/
def extra? : Given → Option (String × String)
  | extra name value => some (String.ofList name, String.ofList value)
  | _ => none

end Given

/-- The value `a` is given, or it is the default and the option is left out or left empty. -/
def GivenOr {α : Type} (gs : List Given) (option : Option α → Given) (default a : α) : Prop :=
  option (some a) ∈ gs ∨
    a = default ∧ (option none ∈ gs ∨ (option none).key ∉ gs.map Given.key)

/-- The settings that options amount to. -/
structure Describes (gs : List Given) (s : Settings) : Prop where
  memory : .memory s.memory ∈ gs
  size : .size s.size ∈ gs
  policy : GivenOr gs .policy .lru s.policy
  lineSize : GivenOr gs .lineSize 16 s.lineSize
  blockSize : GivenOr gs .blockSize 4 s.blockSize
  ignoreOutsized : GivenOr gs .ignoreOutsized false s.ignoreOutsized
  extra : s.extra = gs.filterMap Given.extra?

namespace Given

/-! ### Lines -/

/-- Plain words can stand as values and lose nothing when they are trimmed. -/
theorem clean_of_plain {w : List Char} (h : ∀ c ∈ w, Plain c) :
    (∀ c ∈ w, Options.ValueChar c) ∧ trim w = w := by
  refine ⟨fun c hc => ⟨(h c hc).2.2, ?_, ?_⟩, trimBy_eq_self fun c hc => (h c hc).isOuterSpace⟩
  · rintro rfl
    exact absurd (h _ hc).1 (by decide)
  · rintro rfl
    exact absurd (h _ hc).1 (by decide)

/-- What is spelled out is plain. -/
theorem plain_of_spelling {α : Type} {Spells : α → List Char → Prop}
    (hplain : ∀ a w, Spells a w → ∀ c ∈ w, Plain c) {o : Option α} {w : List Char}
    (h : Spelling Spells o w) : ∀ c ∈ w, Plain c := by
  cases o with
  | none =>
    obtain rfl : w = [] := h
    exact List.forall_mem_nil _
  | some a => exact hplain a w h

/-- So can all spellings of proper options. -/
theorem Spelled.clean {g : Given} (hg : g.Proper) {w : List Char} (h : g.Spelled w) :
    (∀ c ∈ w, Options.ValueChar c) ∧ trim w = w := by
  cases g with
  | memory m => exact clean_of_plain (InAnyCase.plain h m.plain_word)
  | size n => exact clean_of_plain (Literal.plain h)
  | policy p =>
    exact clean_of_plain (plain_of_spelling (fun p w hw => InAnyCase.plain hw p.plain_word) h)
  | lineSize n => exact clean_of_plain (plain_of_spelling (fun _ _ => Literal.plain) h)
  | blockSize n => exact clean_of_plain (plain_of_spelling (fun _ _ => Literal.plain) h)
  | ignoreOutsized b =>
    refine clean_of_plain (plain_of_spelling ?_ h)
    rintro b w ⟨word, hword, hw⟩
    exact hw.plain (Options.plain_words hword)
  | extra name value =>
    obtain rfl : w = value := h
    obtain ⟨-, -, -, hchars, hstripped⟩ := hg
    exact ⟨hchars, trim_eq_iff.2 hstripped⟩

/-- A line that gives an option is a line of the option language. -/
theorem line_of_written {g : Given} (hg : g.Proper) {l : List Char} (h : g.Written l) :
    ∃ w, g.Spelled w ∧ Options.Line l (some (g.key.toList, w)) := by
  obtain ⟨key, gap, gap', w, rfl, hkey, hlocal, hgap, hgap', hw⟩ := h
  obtain ⟨hchars, htrim⟩ := hw.clean hg
  have hvalue : trim (gap' ++ w ++ []) = w :=
    (trim_append hgap'.isOuterSpace (List.forall_mem_nil _)).trans htrim
  rw [List.append_nil] at hvalue
  have hnil : Blanks [] := List.forall_mem_nil _
  have hend : Ending (· = '#') [] := ending_iff.2 (.inl rfl)
  have hline := Options.Line.option hnil hkey hgap
    (List.forall_mem_append.2 ⟨Options.valueChar_of_blanks hgap', hchars⟩) hnil hend hlocal
    (trim_eq_iff.1 hvalue)
  refine ⟨w, hw, ?_⟩
  simpa using hline

/-- The options of lines, each with the text of its value. -/
theorem exists_texts {gs : List Given} (hproper : ∀ g ∈ gs, g.Proper) {ls : List (List Char)}
    (h : List.Forall₂ Written gs ls) : ∃ xs : List (Given × List Char), xs.map Prod.fst = gs ∧
      (∀ x ∈ xs, x.1.Spelled x.2) ∧
      List.Forall₂ Options.Line ls (xs.map fun x => some (x.1.key.toList, x.2)) := by
  induction h with
  | nil => exact ⟨[], rfl, List.forall_mem_nil _, .nil⟩
  | @cons g l gs ls hl _ ih =>
    obtain ⟨w, hw, hline⟩ := line_of_written (hproper g List.mem_cons_self) hl
    obtain ⟨xs, rfl, hspelled, hlines⟩ := ih fun g' hg' => hproper g' (List.mem_cons_of_mem g hg')
    exact ⟨(g, w) :: xs, rfl, List.forall_mem_cons.2 ⟨hw, hspelled⟩, .cons hline hlines⟩

/-! ### Options -/

/-- The options with the texts of their values. -/
def options (xs : List (Given × List Char)) : Options :=
  xs.map fun x => (x.1.key, String.ofList x.2)

/-- The options have the keys that are given, in this order. -/
theorem keys_options (xs : List (Given × List Char)) :
    (options xs).keys = (xs.map Prod.fst).map key := by
  rw [Options.keys, options, List.map_map, List.map_map]
  rfl

theorem pairs_eq (xs : List (Given × List Char)) :
    Options.pairs (xs.map fun x => some (x.1.key.toList, x.2)) = options xs := by
  induction xs with
  | nil => rfl
  | cons x xs ih =>
    show (String.ofList x.1.key.toList, String.ofList x.2) :: Options.pairs _ = _
    rw [ih, String.ofList_toList]
    rfl

/-- A proper option has a key of its own if and only if it is not passed on. -/
theorem mem_ownKeys {g : Given} (hg : g.Proper) : g.key ∈ Settings.ownKeys ↔ g.extra? = none := by
  cases g with
  | extra name value => exact ⟨fun h => absurd h hg.2.2.1, fun h => by cases h⟩
  | _ => simp [key, extra?, Settings.ownKeys]

/-- The options that are passed on are those with other keys, in their order. -/
theorem extraOptions_options {xs : List (Given × List Char)} (hspelled : ∀ x ∈ xs, x.1.Spelled x.2)
    (hproper : ∀ x ∈ xs, x.1.Proper) :
    Settings.extraOptions (options xs) = (xs.map Prod.fst).filterMap extra? := by
  induction xs with
  | nil => rfl
  | cons x xs ih =>
    obtain ⟨hx, hxs⟩ := List.forall_mem_cons.1 hspelled
    obtain ⟨hp, hps⟩ := List.forall_mem_cons.1 hproper
    have hrest := ih hxs hps
    rw [Settings.extraOptions] at hrest ⊢
    show List.filter _ ((x.1.key, String.ofList x.2) :: options xs) = _
    rw [List.filter_cons, hrest, List.map_cons, List.filterMap_cons]
    cases hextra : x.1.extra? with
    | none => simp [(mem_ownKeys hp).2 hextra]
    | some p =>
      have hnot : x.1.key ∉ Settings.ownKeys := by
        rw [mem_ownKeys hp, hextra]
        exact Option.some_ne_none p
      have hpair : (x.1.key, String.ofList x.2) = p := by
        obtain ⟨g, w⟩ := x
        cases g with
        | extra name value =>
          obtain rfl : w = value := hx
          exact Option.some.inj hextra
        | _ => cases hextra
      simp [hnot, hpair]

end Given

namespace Options

/-- Pairs without repeated keys are options as they stand. -/
theorem ofPairs_of_nodup {o : Options} (h : o.keys.Nodup) : ofPairs o = o := by
  induction o using List.reverseRecOn with
  | nil => rfl
  | append_singleton o p ih =>
    rw [keys, List.map_append, List.map_singleton, ← List.concat_eq_append, List.nodup_concat] at h
    have hstep : ofPairs (o ++ [p]) = (ofPairs o).put p.1 p.2 := by
      rw [ofPairs, List.foldl_append]
      rfl
    rw [hstep, ih h.2, put, if_neg (mt has_iff.1 h.1)]

/-- An option that is given has its value. -/
theorem value_of_mem {o : Options} (h : o.keys.Nodup) {p : String × String} (hp : p ∈ o) :
    o.value p.1 = p.2 := by
  rw [eq_map_value h] at hp
  obtain ⟨k, -, rfl⟩ := List.mem_map.1 hp
  rfl

/-- An option that is not given has the empty text as its value. -/
theorem value_of_not_mem {o : Options} {key : String} (h : key ∉ o.keys) : o.value key = "" := by
  have hnone : o.lookup key = none := by
    rw [← Option.not_isSome_iff_eq_none, lookup_isSome_iff]
    exact h
  rw [value, hnone]
  rfl

end Options

/-! ### Reading -/

namespace Text

theorem InAnyCase.ne_nil {word : String} {w : List Char} (h : InAnyCase word w)
    (hword : word.toList ≠ []) : w ≠ [] := by
  rintro rfl
  exact hword (List.map_eq_nil_iff.1 h.symm)

theorem Literal.ne_nil {n : Int} {w : List Char} (h : Literal n w) : w ≠ [] := by
  cases h with
  | unsigned h =>
    obtain ⟨c, cs, rfl, -⟩ := h.exists_cons
    exact List.cons_ne_nil c cs
  | negated h => exact List.cons_ne_nil _ _

end Text

namespace Given

section Reading

variable {xs : List (Given × List Char)} (hspelled : ∀ x ∈ xs, x.1.Spelled x.2)
  (hkeys : ((xs.map Prod.fst).map key).Nodup)
include hspelled hkeys

/-- The value of a given option is one of its spellings. -/
theorem exists_value {g : Given} (hg : g ∈ xs.map Prod.fst) :
    ∃ w, g.Spelled w ∧ (options xs).value g.key = String.ofList w := by
  obtain ⟨x, hx, rfl⟩ := List.mem_map.1 hg
  refine ⟨x.2, hspelled x hx, ?_⟩
  rw [← keys_options] at hkeys
  exact Options.value_of_mem hkeys (List.mem_map_of_mem hx)

/-- An option that must be given. -/
theorem mandatory_options {g : Given} (hg : g ∈ xs.map Prod.fst) (hne : ∀ w, g.Spelled w → w ≠ []) :
    ∃ w, g.Spelled w ∧ (options xs).mandatory g.key = .ok (String.ofList w) := by
  obtain ⟨w, hw, hvalue⟩ := exists_value hspelled hkeys hg
  refine ⟨w, hw, ?_⟩
  rw [Options.mandatory, hvalue, if_neg (mt String.ofList_eq_empty_iff.1 (hne w hw))]

/-- An option that may be left out, with what its texts are read as. -/
theorem orDefault_options {α : Type} (option : Option α → Given) (Spells : α → List Char → Prop)
    (hspells : ∀ o, (option o).Spelled = Spelling Spells o) {key : String}
    (hkey : ∀ o, (option o).key = key) {read : String → Except Fault α} {default a : α}
    (h : GivenOr (xs.map Prod.fst) option default a)
    (hread : option (some a) ∈ xs.map Prod.fst → ∀ w, Spells a w →
      w ≠ [] ∧ read (String.ofList w) = .ok a) :
    (options xs).orDefault key default read = .ok a := by
  rw [Options.orDefault, ← hkey none]
  rcases h with hgiven | ⟨rfl, hempty | hout⟩
  · obtain ⟨w, hw, hvalue⟩ := exists_value hspelled hkeys hgiven
    rw [hspells] at hw
    obtain ⟨hne, hok⟩ := hread hgiven w hw
    rw [hkey] at hvalue ⊢
    rw [hvalue, if_neg (mt String.ofList_eq_empty_iff.1 hne), hok]
  · obtain ⟨w, hw, hvalue⟩ := exists_value hspelled hkeys hempty
    rw [hspells] at hw
    obtain rfl : w = [] := hw
    rw [hvalue, if_pos rfl]
  · rw [← keys_options] at hout
    rw [Options.value_of_not_mem hout, if_pos rfl]

variable (hproper : ∀ g ∈ xs.map Prod.fst, g.Proper) {s : Settings}
  (hs : Describes (xs.map Prod.fst) s)
include hproper hs

/-- Options that spell settings are read as these settings. -/
theorem read_options : Settings.read (options xs) = .ok s := by
  have hinteger : ∀ {n w key}, isWritable n = true → Literal n w →
      w ≠ [] ∧ Options.integer key (String.ofList w) = .ok n := by
    intro n w key hn hw
    refine ⟨hw.ne_nil, ?_⟩
    rw [Options.integer, integer?_of_literal hw hn]
  obtain ⟨w, hw, hmemory⟩ := mandatory_options hspelled hkeys hs.memory fun w hw =>
    InAnyCase.ne_nil hw (by cases s.memory <;> simp [MemoryType.word])
  obtain ⟨v, hv, hsize⟩ := mandatory_options hspelled hkeys hs.size fun _ => Literal.ne_nil
  have hpolicy :
      (options xs).orDefault Settings.policyKey .lru PolicyKind.ofText = .ok s.policy := by
    refine orDefault_options hspelled hkeys .policy (fun p => InAnyCase p.word) (fun _ => rfl)
      (fun _ => rfl) hs.policy ?_
    intro _ w hw
    exact ⟨InAnyCase.ne_nil hw (by cases s.policy <;> simp [PolicyKind.word]),
      PolicyKind.ofText_of_inAnyCase hw⟩
  have hlineSize : (options xs).orDefault Settings.lineSizeKey Settings.defaultLineSize
      (Options.integer Settings.lineSizeKey) = .ok s.lineSize :=
    orDefault_options hspelled hkeys .lineSize Literal (fun _ => rfl) (fun _ => rfl) hs.lineSize
      fun hmem w hw => hinteger (hproper _ hmem) hw
  have hblockSize : (options xs).orDefault Settings.blockSizeKey Settings.defaultBlockSize
      (Options.integer Settings.blockSizeKey) = .ok s.blockSize :=
    orDefault_options hspelled hkeys .blockSize Literal (fun _ => rfl) (fun _ => rfl) hs.blockSize
      fun hmem w hw => hinteger (hproper _ hmem) hw
  have hignore : (options xs).orDefault Settings.ignoreOutsizedKey false
      (Options.boolean Settings.ignoreOutsizedKey) = .ok s.ignoreOutsized := by
    refine orDefault_options hspelled hkeys .ignoreOutsized
      (fun b w => ∃ word ∈ Options.words b, InAnyCase word w) (fun _ => rfl) (fun _ => rfl)
      hs.ignoreOutsized ?_
    rintro _ w ⟨word, hword, hw⟩
    exact ⟨InAnyCase.ne_nil hw (Options.word_ne_nil hword),
      Options.boolean_of_inAnyCase hword hw _⟩
  have hextra := extraOptions_options hspelled fun x hx => hproper _ (List.mem_map_of_mem hx)
  rw [← hs.extra] at hextra
  simp only [key] at hmemory hsize
  simp only [Settings.read, hmemory, hsize, hpolicy, hlineSize, hblockSize, hignore, hextra,
    MemoryType.ofText_of_inAnyCase hw, (hinteger (hproper _ hs.size) hv).2, bind, Except.bind]
  rfl

end Reading

end Given

namespace Settings

/-- Settings that can be read and reported are returned. -/
theorem ofOptions_of_read {o : Options} {s : Settings} (h : read o = .ok s)
    (hsize : isWritable s.size = true) (t : Journal) : (ofOptions o t).result = .ok s := by
  have hnotes : Analysis.Succeeds ((extraOptions o).forM fun p =>
      Analysis.note .debug .settings ("ignoring unknown option " ++ quoted p.1)) t :=
    Analysis.succeeds_forM fun p _ => ⟨(), Analysis.result_note _ _ _ t⟩
  obtain ⟨u, hu⟩ := hnotes
  have hread : (Analysis.ofExcept (read o) t).result = .ok s := h
  rw [ofOptions, Analysis.result_bind_of_ok hu, Analysis.result_bind_of_ok hread,
    Analysis.result_bind_of_ok (Analysis.result_note_of_written (by simp [hsize]))]
  rfl

/-- Settings are read from every text that gives them. -/
theorem ofText_of_written (source text : String) {gs : List Given} {ls : List (List Char)}
    {s : Settings} (hcut : CutInto text.toList ls) (hwritten : List.Forall₂ Given.Written gs ls)
    (hkeys : (gs.map Given.key).Nodup) (hproper : ∀ g ∈ gs, g.Proper) (hs : Describes gs s)
    (t : Journal) : (ofText text source t).result = .ok s := by
  obtain ⟨xs, rfl, hspelled, hlines⟩ := Given.exists_texts hproper hwritten
  have hparse : (Options.parse text source t).result = .ok (Given.options xs) := by
    rw [Options.parse_of_lines hcut hlines, Given.pairs_eq, Options.ofPairs_of_nodup]
    rw [Given.keys_options]
    exact hkeys
  rw [ofText, Analysis.result_bind_of_ok hparse]
  exact ofOptions_of_read (Given.read_options hspelled hkeys hproper hs) (hproper _ hs.size) t

/-- A negative size, an option that is passed on, and one that is left empty. -/
def sample : String :=
  "a.b.memory_size =\t-0X1f\nfoo = a = !b\nmemory_type=dIsP\nc.disp_block_size = \n" ++
    "cache_line_size=32"

/-- What the sample gives. -/
def sampleGiven : List Given :=
  [.size (-31), .extra ['f', 'o', 'o'] "a = !b".toList, .memory .scratchpad, .blockSize none,
    .lineSize (some 32)]

theorem ofText_of_written_sample :
    CutInto sample.toList (lines sample.toList) ∧
      List.Forall₂ Given.Written sampleGiven (lines sample.toList) ∧
      (sampleGiven.map Given.key).Nodup ∧ (∀ g ∈ sampleGiven, g.Proper) ∧
      (ofText sample "text" none).result =
        .ok ⟨.scratchpad, -31, .lru, 32, 4, false, [("foo", "a = !b")]⟩ := by
  have hcut := cutInto_lines sample.toList
  have hlines : lines sample.toList = ["a.b.memory_size =\t-0X1f".toList, "foo = a = !b".toList,
      "memory_type=dIsP".toList, "c.disp_block_size = ".toList, "cache_line_size=32".toList] := by
    decide +kernel
  have hline : ∀ {g : Given} {l : List Char} (key gap gap' w : List Char), g.Spelled w →
      (l == key ++ gap ++ ['='] ++ gap' ++ w && (key.head?.any Options.isKeyStart &&
        key.all Options.isKeyChar) && Options.localName key == g.key.toList &&
        gap.all isBlank && gap'.all isBlank) = true → g.Written l := by
    intro g l key gap gap' w hw h
    simp only [Bool.and_eq_true, beq_iff_eq, List.all_eq_true] at h
    obtain ⟨⟨⟨⟨hl, hkey⟩, hlocal⟩, hgap⟩, hgap'⟩ := h
    exact ⟨key, gap, gap', w, hl, Options.key_iff.2 hkey, Options.localName_eq_iff.1 hlocal,
      blanks_iff.2 hgap, blanks_iff.2 hgap', hw⟩
  have hhex : Magnitude (denoted 16 ['1', 'f']) ['0', 'X', '1', 'f'] :=
    .marked (.inr rfl) ⟨by simp, by simp [IsDigit, digitChars]⟩
  have hdecimal : Magnitude (denoted 10 ['3', '2']) ['3', '2'] :=
    .decimal ⟨by simp, by simp [IsDigit, digitChars]⟩ (by simp)
  have hvalues : denoted 16 ['1', 'f'] = 31 ∧ denoted 10 ['3', '2'] = 32 := by decide +kernel
  rw [hvalues.1] at hhex
  rw [hvalues.2] at hdecimal
  have hmemory : InAnyCase "DISP" ['d', 'I', 's', 'P'] := by
    rw [InAnyCase]
    decide +kernel
  have hwritten : List.Forall₂ Given.Written sampleGiven (lines sample.toList) := by
    rw [hlines]
    refine .cons ?_ (.cons ?_ (.cons ?_ (.cons ?_ (.cons ?_ .nil))))
    · exact hline "a.b.memory_size".toList [' '] ['\t'] _ (.negated hhex) (by decide +kernel)
    · exact hline ['f', 'o', 'o'] [' '] [' '] _ rfl (by decide +kernel)
    · exact hline "memory_type".toList [] [] _ hmemory (by decide +kernel)
    · exact hline "c.disp_block_size".toList [' '] [' '] [] rfl (by decide +kernel)
    · exact hline "cache_line_size".toList [] [] _ (.unsigned hdecimal) (by decide +kernel)
  have hkeys : (sampleGiven.map Given.key).Nodup := by decide +kernel
  have hextra : (Given.extra ['f', 'o', 'o'] "a = !b".toList).Proper := by
    refine ⟨⟨'f', ['o', 'o'], rfl, ?_, ?_⟩, by simp, by decide +kernel, ?_, ?_⟩
    · simp [Options.KeyStart]
    · simp [Options.KeyChar]
    · simp [Options.ValueChar]
    · exact trim_eq_iff.1 (by decide +kernel)
  have hproper : ∀ g ∈ sampleGiven, g.Proper := by
    simp only [sampleGiven, List.forall_mem_cons]
    have hwritable : isWritable (-31) = true ∧ isWritable 32 = true := by decide +kernel
    exact ⟨hwritable.1, hextra, trivial, trivial, hwritable.2, List.forall_mem_nil _⟩
  have hs : Describes sampleGiven ⟨.scratchpad, -31, .lru, 32, 4, false, [("foo", "a = !b")]⟩ := by
    refine ⟨by simp [sampleGiven], by simp [sampleGiven], .inr ⟨rfl, .inr ?_⟩, .inl ?_,
      .inr ⟨rfl, .inl ?_⟩, .inr ⟨rfl, .inr ?_⟩, by decide +kernel⟩
    · decide +kernel
    · simp [sampleGiven]
    · simp [sampleGiven]
    · decide +kernel
  exact ⟨hcut, hwritten, hkeys, hproper,
    ofText_of_written "text" sample hcut hwritten hkeys hproper hs none⟩

end Settings

end Residency
