/-
Residency/Proofs/OptionTexts.lean

Texts of options as a whole.  `LastWins` says which options a sequence of keys and values
amounts to: each key stands where it occurs first and has the value that it is given last.
`reads_exactly` says what becomes of any text, and of two texts one after the other, of which
the second updates the options of the first (`Updated`).
-/
import Residency.Proofs.Lines
import Residency.Proofs.OptionLines
import Residency.Proofs.Wording

namespace Residency.Options

open Text

/-! ### First occurrences -/

section FirstOccurrences

variable {l : List String}

/-- A member at the end counts only if it is new. -/
theorem eraseDups_concat (l : List String) (x : String) :
    (l ++ [x]).eraseDups = if x ∈ l then l.eraseDups else l.eraseDups ++ [x] := by
  rw [List.eraseDups_append]
  by_cases hx : x ∈ l
  · simp [List.removeAll, hx]
  · simp [List.removeAll, hx, List.eraseDups_cons]

theorem nodup_eraseDups (l : List String) : l.eraseDups.Nodup := by
  induction l using List.reverseRecOn with
  | nil => exact List.nodup_nil
  | append_singleton l x ih =>
    rw [eraseDups_concat]
    split
    · exact ih
    · rename_i hx
      rw [← List.concat_eq_append, List.nodup_concat]
      exact ⟨fun h => hx (List.mem_eraseDups.1 h), ih⟩

theorem eraseDups_filter (p : String → Bool) (l : List String) :
    (l.filter p).eraseDups = l.eraseDups.filter p := by
  induction l using List.reverseRecOn with
  | nil => rfl
  | append_singleton l x ih =>
    by_cases hp : p x = true <;> by_cases hx : x ∈ l <;>
      simp [eraseDups_concat, List.filter_append, hp, hx, ih]

end FirstOccurrences

/-! ### Options by key -/

/-- The keys in the order of the options. -/
def keys (o : Options) : List String :=
  o.map Prod.fst

theorem has_iff {o : Options} {key : String} : o.has key = true ↔ key ∈ o.keys := by
  simp [has, keys]

/-- Putting a value keeps the place of a key, and a new key comes last. -/
theorem keys_put (o : Options) (key value : String) :
    (o.put key value).keys = if key ∈ o.keys then o.keys else o.keys ++ [key] := by
  unfold put
  by_cases h : o.has key = true
  · rw [if_pos h, if_pos (has_iff.1 h), keys, keys, List.map_map]
    refine List.map_congr_left fun p _ => ?_
    by_cases hp : p.1 = key <;> simp [hp]
  · rw [if_neg h, if_neg (mt has_iff.2 h), keys, List.map_append]
    rfl

theorem lookup_cons (p : String × String) (o : Options) (k : String) :
    (p :: o : Options).lookup k = if k = p.1 then some p.2 else o.lookup k := by
  rw [List.lookup_cons]
  by_cases hk : k = p.1
  · simp [hk]
  · simp [hk, beq_false_of_ne hk]

theorem lookup_isSome_iff {o : Options} {key : String} :
    (o.lookup key).isSome = true ↔ key ∈ o.keys := by
  rw [List.lookup_isSome_iff, keys, List.mem_map]
  simp only [beq_iff_eq, eq_comm (a := key)]

/-- Putting a value changes what is found under its key and nothing else. -/
theorem lookup_put (o : Options) (key value k : String) :
    (o.put key value).lookup k = if k = key then some value else o.lookup k := by
  -- Where the key is given already, its options are replaced one by one.
  have hreplace : ∀ o : Options,
      (o.map fun p => if p.1 = key then (key, value) else p).lookup k =
        if k = key then (o.lookup key).map fun _ => value else o.lookup k := by
    intro o
    induction o with
    | nil => simp
    | cons p o ih =>
      rw [List.map_cons, lookup_cons, lookup_cons, lookup_cons, ih]
      by_cases hp : p.1 = key
      · by_cases hk : k = key <;> simp [hp, hk]
      · by_cases hk : k = key
        · simp [hp, hk, Ne.symm hp]
        · simp [hp, hk]
  unfold put
  by_cases h : o.has key = true
  · obtain ⟨v, hv⟩ := Option.isSome_iff_exists.1 (lookup_isSome_iff.2 (has_iff.1 h))
    rw [if_pos h, hreplace, hv, Option.map_some]
  · have hnone : o.lookup key = none := by
      rw [← Option.not_isSome_iff_eq_none, lookup_isSome_iff]
      exact mt has_iff.2 h
    rw [if_neg h, List.lookup_append, lookup_cons]
    by_cases hk : k = key
    · simp [hk, hnone]
    · simp [hk]

/-- Options with distinct keys are determined by their keys and values. -/
theorem eq_map_value {o : Options} (h : o.keys.Nodup) : o = o.keys.map fun k => (k, o.value k) := by
  induction o with
  | nil => rfl
  | cons p o ih =>
    obtain ⟨hp, ho⟩ := List.nodup_cons.1 h
    have hvalue : ∀ k ∈ keys o, (k, value (p :: o) k) = (k, value o k) := by
      intro k hk
      have hne : k ≠ p.1 := fun heq => hp (heq ▸ hk)
      rw [value, lookup_cons, if_neg hne]
      rfl
    have hhead : value (p :: o) p.1 = p.2 := by
      rw [value, lookup_cons, if_pos rfl]
      rfl
    show p :: o = (p.1, value (p :: o) p.1) :: (keys o).map fun k => (k, value (p :: o) k)
    rw [hhead, List.map_congr_left hvalue, ← ih ho]

/-! ### The last value -/

/-- The options that keys and values amount to: each key once, where it occurs first, with the
value that it has last. -/
structure LastWins (ps : List (String × String)) (o : Options) : Prop where
  keys : o.keys = (ps.map Prod.fst).eraseDups
  values : ∀ key, o.lookup key = ps.reverse.lookup key

/-- Pairs put one after another: the first place and the last value of each key. -/
theorem lastWins_ofPairs (ps : List (String × String)) : LastWins ps (ofPairs ps) := by
  induction ps using List.reverseRecOn with
  | nil => exact ⟨rfl, fun _ => rfl⟩
  | append_singleton ps p ih =>
    have hstep : ofPairs (ps ++ [p]) = (ofPairs ps).put p.1 p.2 := by
      rw [ofPairs, List.foldl_append]
      rfl
    refine ⟨?_, fun key => ?_⟩
    · rw [hstep, keys_put, ih.keys, List.map_append, List.map_singleton, eraseDups_concat]
      simp only [List.mem_eraseDups]
    · rw [hstep, lookup_put, ih.values, List.reverse_append, List.reverse_singleton,
        List.singleton_append, lookup_cons]

/-- Options repeat no key. -/
theorem LastWins.nodup {ps : List (String × String)} {o : Options} (h : LastWins ps o) :
    o.keys.Nodup := by
  rw [h.keys]
  exact nodup_eraseDups _

/-- Options are given by their keys in order and by what is found under them. -/
theorem eq_of_lookup {o o' : Options} (ho : o.keys.Nodup) (hkeys : o.keys = o'.keys)
    (hvalues : ∀ key, o.lookup key = o'.lookup key) : o = o' := by
  have ho' : o'.keys.Nodup := hkeys ▸ ho
  rw [eq_map_value ho, eq_map_value ho', ← hkeys]
  refine List.map_congr_left fun k _ => ?_
  rw [value, value, hvalues]

/-- There is one list of options that pairs amount to. -/
theorem lastWins_iff {ps : List (String × String)} {o : Options} :
    LastWins ps o ↔ ofPairs ps = o := by
  have hpairs := lastWins_ofPairs ps
  constructor
  · intro h
    exact eq_of_lookup hpairs.nodup (hpairs.keys.trans h.keys.symm)
      fun key => (hpairs.values key).trans (h.values key).symm
  · rintro rfl
    exact hpairs

/-- The options `o` updated by the options `o'`: the keys of `o` keep their places, the new
ones of `o'` follow, and the values of `o'` go first. -/
structure Updated (o o' new : Options) : Prop where
  keys : new.keys = o.keys ++ o'.keys.filter (· ∉ o.keys)
  values : ∀ key, new.lookup key = (o'.lookup key).or (o.lookup key)

/-- More pairs update the options of those before them. -/
theorem updated_ofPairs (ps qs : List (String × String)) :
    Updated (ofPairs ps) (ofPairs qs) (ofPairs (ps ++ qs)) := by
  have hps := lastWins_ofPairs ps
  have hqs := lastWins_ofPairs qs
  have hboth := lastWins_ofPairs (ps ++ qs)
  refine ⟨?_, fun key => ?_⟩
  · rw [hboth.keys, hps.keys, hqs.keys, List.map_append, List.eraseDups_append, List.removeAll,
      eraseDups_filter]
    congr 1
    refine List.filter_congr fun k _ => ?_
    simp
  · rw [hboth.values, hps.values, hqs.values, List.reverse_append, List.lookup_append]

/-- There is one list of options that comes of an update. -/
theorem updated_iff {ps qs : List (String × String)} {o : Options} :
    Updated (ofPairs ps) (ofPairs qs) o ↔ ofPairs (ps ++ qs) = o := by
  have hboth := updated_ofPairs ps qs
  constructor
  · intro h
    exact eq_of_lookup (lastWins_ofPairs _).nodup (hboth.keys.trans h.keys.symm)
      fun key => (hboth.values key).trans (h.values key).symm
  · rintro rfl
    exact hboth

/-! ### From lines to options -/

/-- The options of lines, as keys and values. -/
def pairs (said : List (Option (List Char × List Char))) : List (String × String) :=
  said.filterMap fun o => o.map fun (key, value) => (String.ofList key, String.ofList value)

theorem pairs_append (said said' : List (Option (List Char × List Char))) :
    pairs (said ++ said') = pairs said ++ pairs said' :=
  List.filterMap_append

section Texts

variable {source text : String} {ls : List (List Char)}
  {said : List (Option (List Char × List Char))} {t : Journal}

theorem decides_ofLine? (ls : List (List Char)) : Decides ofLine? Line ls :=
  fun _ _ _ => ofLine?_eq_some

/-- Giving options one after the other never fails: a report holds no number that is too long. -/
theorem result_follow_give (o : Options) (entries : List (Nat × String × String)) :
    (Analysis.follow (give source) o entries t).result =
      .ok ((entries.map Prod.snd).foldl (fun o p => o.put p.1 p.2) o) := by
  induction entries generalizing o with
  | nil => rfl
  | cons entry entries ih =>
    obtain ⟨line, key, value⟩ := entry
    have hgive : (give source o (line, key, value) t).result = .ok (o.put key value) := by
      unfold give
      dsimp only
      split
      · exact Analysis.result_note_bind rfl _
      · rfl
    rw [Analysis.follow, Analysis.result_bind_of_ok hgive]
    exact ih _

/-- A text of the language is read as the options that its pairs amount to. -/
theorem parse_of_lines (h : CutInto text.toList ls) (hsaid : List.Forall₂ Line ls said) :
    (parse text source t).result = .ok (ofPairs (pairs said)) := by
  have hread : readLines ofLine? 1 ls = .ok (numbered 1 said) :=
    (decides_ofLine? ls).readLines_eq_ok.2 ⟨said, hsaid, rfl⟩
  rw [parse, Analysis.result_bind, Analysis.result_ofExcept, located, cutInto_iff.1 h, hread]
  refine (result_follow_give [] _).trans (congrArg Except.ok (congrArg ofPairs ?_))
  -- The numbers of the lines are dropped again.
  conv_rhs => rw [pairs, ← map_snd_numbered 1 said, List.filterMap_map]
  rw [List.map_filterMap]
  refine List.filterMap_congr ?_
  rintro ⟨line, o⟩ -
  cases o <;> rfl

/-- Otherwise the first line outside of the language is at fault. -/
theorem parse_of_firstOutside (h : CutInto text.toList ls) {line : Nat}
    (hline : FirstOutside Line ls line) :
    (parse text source t).result = .error (.malformedOption source line) := by
  rw [parse, Analysis.result_bind, Analysis.result_ofExcept, located, cutInto_iff.1 h,
    (decides_ofLine? ls).readLines_eq_error.2 hline]
  rfl

/-- The texts that are read are those of the language. -/
theorem parse_eq_ok_iff (h : CutInto text.toList ls) {o : Options} :
    (parse text source t).result = .ok o ↔
      ∃ said, List.Forall₂ Line ls said ∧ LastWins (pairs said) o := by
  constructor
  · intro ho
    rcases exists_said_or_outside Line ls with ⟨said, hsaid⟩ | ⟨line, hline⟩
    · rw [parse_of_lines h hsaid] at ho
      exact ⟨said, hsaid, lastWins_iff.2 (Except.ok.inj ho)⟩
    · rw [parse_of_firstOutside h hline] at ho
      cases ho
  · rintro ⟨said, hsaid, ho⟩
    rw [parse_of_lines h hsaid, lastWins_iff.1 ho]

/-- There is no other fault than a line outside of the language. -/
theorem parse_eq_error_iff (h : CutInto text.toList ls) {e : Fault} :
    (parse text source t).result = .error e ↔
      ∃ line, e = .malformedOption source line ∧ FirstOutside Line ls line := by
  constructor
  · intro he
    rcases exists_said_or_outside Line ls with ⟨said, hsaid⟩ | ⟨line, hline⟩
    · rw [parse_of_lines h hsaid] at he
      cases he
    · rw [parse_of_firstOutside h hline] at he
      exact ⟨line, (Except.error.inj he).symm, hline⟩
  · rintro ⟨line, rfl, hline⟩
    exact parse_of_firstOutside h hline

/-! ### One text behind another -/

section Behind

variable {rest : String} (hend : text.toList.getLast? = some '\n')
include hend

/-- Behind a line feed the lines of two texts come one after the other. -/
theorem cutInto_append :
    CutInto (text ++ rest).toList (lines text.toList ++ lines rest.toList) := by
  rw [cutInto_iff, String.toList_append, lines_append hend]

/-- A text that is refused is refused whatever comes behind it. -/
theorem parse_append_of_error {e : Fault} (he : (parse text source t).result = .error e) :
    (parse (text ++ rest) source t).result = .error e := by
  obtain ⟨line, rfl, hline⟩ := (parse_eq_error_iff (cutInto_lines _)).1 he
  exact parse_of_firstOutside (cutInto_append hend) (hline.append _)

/-- A fault behind a text that is read has its line counted from the start. -/
theorem parse_append_of_error_behind {o : Options} {line : Nat}
    (ho : (parse text source t).result = .ok o)
    (he : (parse rest source t).result = .error (.malformedOption source line)) :
    (parse (text ++ rest) source t).result =
      .error (.malformedOption source (text.toList.count '\n' + line)) := by
  obtain ⟨said, hsaid, -⟩ := (parse_eq_ok_iff (cutInto_lines _)).1 ho
  obtain ⟨n, hn, hline⟩ := (parse_eq_error_iff (cutInto_lines _)).1 he
  obtain ⟨-, rfl⟩ := Fault.malformedOption.inj hn
  rw [← length_lines hend]
  exact parse_of_firstOutside (cutInto_append hend) (hline.behind hsaid)

/-- Two texts are read together if each is, and the second one updates the first. -/
theorem parse_append_eq_ok_iff {o : Options} :
    (parse (text ++ rest) source t).result = .ok o ↔
      ∃ o₁ o₂, (parse text source t).result = .ok o₁ ∧ (parse rest source t).result = .ok o₂ ∧
        Updated o₁ o₂ o := by
  constructor
  · intro ho
    cases h₁ : (parse text source t).result with
    | error e =>
      rw [parse_append_of_error hend h₁] at ho
      cases ho
    | ok o₁ =>
      cases h₂ : (parse rest source t).result with
      | error e =>
        obtain ⟨line, rfl, -⟩ := (parse_eq_error_iff (cutInto_lines _)).1 h₂
        rw [parse_append_of_error_behind hend h₁ h₂] at ho
        cases ho
      | ok o₂ =>
        obtain ⟨said₁, hsaid₁, hpairs₁⟩ := (parse_eq_ok_iff (cutInto_lines _)).1 h₁
        obtain ⟨said₂, hsaid₂, hpairs₂⟩ := (parse_eq_ok_iff (cutInto_lines _)).1 h₂
        rw [parse_of_lines (cutInto_append hend) (List.rel_append hsaid₁ hsaid₂)] at ho
        refine ⟨o₁, o₂, rfl, rfl, ?_⟩
        rw [← lastWins_iff.1 hpairs₁, ← lastWins_iff.1 hpairs₂, updated_iff, ← pairs_append]
        exact Except.ok.inj ho
  · rintro ⟨o₁, o₂, h₁, h₂, hupdated⟩
    obtain ⟨said₁, hsaid₁, hpairs₁⟩ := (parse_eq_ok_iff (cutInto_lines _)).1 h₁
    obtain ⟨said₂, hsaid₂, hpairs₂⟩ := (parse_eq_ok_iff (cutInto_lines _)).1 h₂
    rw [← lastWins_iff.1 hpairs₁, ← lastWins_iff.1 hpairs₂, updated_iff, ← pairs_append] at hupdated
    rw [parse_of_lines (cutInto_append hend) (List.rel_append hsaid₁ hsaid₂), hupdated]

end Behind

end Texts

/-- What becomes of a text, and of one text behind another: a text is malformed if a line is
outside the language, and the first such line is named; otherwise the last value of each key
wins, also from one text to the next. -/
theorem reads_exactly (source text : String) {ls : List (List Char)}
    (hcut : CutInto text.toList ls) (t : Journal) :
    ((∃ e, (parse text source t).result = .error e) ↔ ∃ l ∈ ls, ∀ o, ¬Line l o) ∧
    (∀ e, (parse text source t).result = .error e → ∃ line, e = .malformedOption source line ∧
      FirstOutside Line ls line ∧ e.diagnostic.place = some ⟨source, some line, some 1⟩) ∧
    (∀ o, (parse text source t).result = .ok o ↔
      ∃ said, List.Forall₂ Line ls said ∧ LastWins (pairs said) o) ∧
    ∀ rest : String, text.toList.getLast? = some '\n' →
      (∀ o, (parse (text ++ rest) source t).result = .ok o ↔
        ∃ o₁ o₂, (parse text source t).result = .ok o₁ ∧ (parse rest source t).result = .ok o₂ ∧
          Updated o₁ o₂ o) ∧
      (∀ e, (parse text source t).result = .error e →
        (parse (text ++ rest) source t).result = .error e) ∧
      ∀ o₁ line, (parse text source t).result = .ok o₁ →
        (parse rest source t).result = .error (.malformedOption source line) →
          (parse (text ++ rest) source t).result =
            .error (.malformedOption source (text.toList.count '\n' + line)) := by
  refine ⟨⟨?_, ?_⟩, ?_, fun o => parse_eq_ok_iff hcut, fun rest hend => ⟨?_, ?_, ?_⟩⟩
  · rintro ⟨e, he⟩
    obtain ⟨line, -, hline⟩ := (parse_eq_error_iff hcut).1 he
    exact exists_firstOutside_iff.1 ⟨line, hline⟩
  · intro hout
    obtain ⟨line, hline⟩ := exists_firstOutside_iff.2 hout
    exact ⟨_, parse_of_firstOutside hcut hline⟩
  · intro e he
    obtain ⟨line, rfl, hline⟩ := (parse_eq_error_iff hcut).1 he
    exact ⟨line, rfl, hline, rfl⟩
  · exact fun o => parse_append_eq_ok_iff hend
  · exact fun e => parse_append_of_error hend
  · exact fun o₁ line => parse_append_of_error_behind hend

/-- A mark inside a value, one that opens a comment, and an empty value. -/
def sample : String :=
  "a.k = 1 ! x # c\r\n! note\nm=\n"

/-- The options of the sample, and a malformed line in what follows it. -/
theorem reads_exactly_behind :
    CutInto sample.toList (lines sample.toList) ∧ sample.toList.getLast? = some '\n' ∧
      (parse sample "text" none).result = .ok [("k", "1 ! x"), ("m", "")] ∧
      (parse "b.k = 2\n?" "text" none).result = .error (.malformedOption "text" 2) ∧
      (parse (sample ++ "b.k = 2\n?") "text" none).result = .error (.malformedOption "text" 5) := by
  have hcut := cutInto_lines sample.toList
  have hend : sample.toList.getLast? = some '\n' := by decide +kernel
  have hread : readLines ofLine? 1 (lines sample.toList) =
      .ok [(1, some (['k'], "1 ! x".toList)), (2, none), (3, some (['m'], []))] := by
    decide +kernel
  obtain ⟨said, hsaid, hnumbered⟩ := (decides_ofLine? _).readLines_eq_ok.1 hread
  have hpairs : LastWins (pairs said) [("k", "1 ! x"), ("m", "")] := by
    rw [← map_snd_numbered 1 said, ← hnumbered, lastWins_iff]
    decide +kernel
  obtain ⟨-, -, hok, happend⟩ := reads_exactly "text" sample hcut none
  have hfirst := (hok _).2 ⟨said, hsaid, hpairs⟩
  have hrest : (parse "b.k = 2\n?" "text" none).result = .error (.malformedOption "text" 2) := by
    decide +kernel
  exact ⟨hcut, hend, hfirst, hrest, (happend _ hend).2.2 _ 2 hfirst hrest⟩

end Residency.Options
