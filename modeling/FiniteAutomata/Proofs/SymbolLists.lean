/-
  FiniteAutomata.Proofs.SymbolLists
  ─────────────────────────────────
  **SYMBOL TEXT PART BY PART.**

  A list of symbols can be put together from parts with a comma between them.
  What reading must not do is take a part and the next one together: a backslash
  escapes what follows it, and a dash looks for the end of a range.  So a part
  must not end in a backslash that escapes nothing yet (`finalBackslashes`), and
  at a delimiter reading starts afresh:

      lexemes_append        the lexemes of two texts, one after the other
      readLexemes_append    lexemes with a delimiter between them
      readBy_join_iff       two parts are read as the union of both

  Main statements: parts are read one by one, so neither their order nor their
  repetition counts (`read_parts`); and blanks that are not escaped do not count
  anywhere (`readWith_of_dropsGaps`).
-/
import FiniteAutomata.Proofs.SymbolText

namespace FiniteAutomata.SymbolSet

/-! ## §1. Lexemes of a text and its continuation. -/

/-- The number of backslashes at the end of a text. -/
def finalBackslashes (text : List Char) : Nat :=
  (text.reverse.takeWhile (· = '\\')).length

theorem finalBackslashes_cons (c : Char) (text : List Char) :
    finalBackslashes (c :: text)
      = if finalBackslashes text = text.length then
          text.length + if c = '\\' then 1 else 0
        else finalBackslashes text := by
  unfold finalBackslashes
  rw [List.reverse_cons, List.takeWhile_append, List.length_reverse]
  by_cases hall : (text.reverse.takeWhile (· = '\\')).length = text.length
  · rw [if_pos hall, if_pos hall]
    by_cases hc : c = '\\' <;> simp [hc]
  · rw [if_neg hall, if_neg hall]

/-- A backslash and the character that it escapes leave nothing open. -/
theorem finalBackslashes_escape (c : Char) (text : List Char) :
    finalBackslashes ('\\' :: c :: text) % 2 = finalBackslashes text % 2 := by
  have hfirst := finalBackslashes_cons '\\' (c :: text)
  have hsecond := finalBackslashes_cons c text
  rw [if_pos rfl, List.length_cons] at hfirst
  by_cases hall : finalBackslashes text = text.length
  · rw [if_pos hall] at hsecond
    by_cases hc : c = '\\'
    · rw [if_pos hc] at hsecond
      rw [if_pos (by omega)] at hfirst
      omega
    · rw [if_neg hc] at hsecond
      rw [if_neg (by omega)] at hfirst
      omega
  · rw [if_neg hall] at hsecond
    have hle : finalBackslashes text ≤ text.length := by
      have hprefix := (List.takeWhile_prefix (l := text.reverse) (· = '\\')).length_le
      rwa [List.length_reverse] at hprefix
    rw [if_neg (by omega)] at hfirst
    omega

/-- No lexeme reaches beyond a text whose last backslash escapes nothing else. -/
theorem lexemes_append {text : List Char} (h : finalBackslashes text % 2 = 0)
    (rest : List Char) : lexemes true (text ++ rest) = lexemes true text ++ lexemes true rest := by
  induction text using lexemes.induct true with
  | case1 => rfl
  | case2 c =>
      have hc : c ≠ '\\' := by
        rintro rfl
        exact absurd h (by decide)
      rw [List.singleton_append, lexemes_cons hc]
      rfl
  | case3 c e text hescape ih =>
      obtain rfl : c = '\\' := by simpa using hescape
      rw [finalBackslashes_escape] at h
      rw [List.cons_append, List.cons_append, lexemes_escape, lexemes_escape, ih h]
      rfl
  | case4 c e text hraw ih =>
      have hc : c ≠ '\\' := by simpa using hraw
      have hrest : finalBackslashes (e :: text) % 2 = 0 := by
        rw [finalBackslashes_cons c, if_neg hc, Nat.add_zero] at h
        by_cases hall : finalBackslashes (e :: text) = (e :: text).length
        · rw [if_pos hall] at h
          rw [hall, h]
        · rwa [if_neg hall] at h
      rw [List.cons_append, lexemes_cons hc, lexemes_cons hc, ih hrest]
      rfl

/-! ## §2. Lexemes before and after a delimiter. -/

/-- Where no range goes on, a dash that comes next has the delimiter behind it. -/
theorem eq_raw_of_append_eq {d : Char} (hdash : d ≠ '-') {rest second rest' : List Lexeme}
    {y : Lexeme} (hrest : ∀ z l, rest = .raw '-' :: z :: l → False)
    (h : rest ++ .raw d :: second = .raw '-' :: y :: rest') : y = .raw d := by
  cases rest with
  | nil =>
      injection h with h
      injection h with h
      exact absurd h hdash
  | cons z rest =>
      injection h with hz h
      cases rest with
      | nil =>
          injection h with h
          exact h.symm
      | cons z' rest =>
          rw [hz] at hrest
          exact (hrest z' rest rfl).elim

/-- Reading starts afresh at a delimiter: nothing before it can reach beyond it. -/
theorem readLexemes_append {d : Char} (hdash : d ≠ '-') (first second : List Lexeme) :
    readLexemes d (first ++ .raw d :: second) = (do
      let symbols ← readLexemes d first
      let symbols' ← readLexemes d second
      return symbols ++ symbols') := by
  induction first using readLexemes.induct d with
  | case1 =>
      rw [List.nil_append, readLexemes_delimiter]
      exact (bind_pure (readLexemes d second)).symm
  | case2 y rest ih =>
      rw [List.cons_append, readLexemes_delimiter, readLexemes_delimiter]
      exact ih
  | case3 x rest hx ih =>
      -- The dash stands before a delimiter, so it begins no range on either side.
      have hdelimiter : ∀ (l : List Lexeme) (y : Lexeme) rest',
          .raw '-' :: .raw d :: l = .raw '-' :: y :: rest' → y = .raw d := by
        intro l y rest' heq
        injection heq with _ heq
        injection heq with heq
        exact heq.symm
      simp only [List.cons_append] at ih ⊢
      rw [readLexemes_symbol hx (hdelimiter _), readLexemes_symbol hx (hdelimiter _), ih]
      simp only [map_eq_pure_bind, bind_assoc, pure_bind, List.cons_append]
  | case4 x y rest hx hy ih =>
      rw [List.cons_append, List.cons_append, List.cons_append, readLexemes, readLexemes,
        if_neg hx, if_neg hy, if_neg hx, if_neg hy, ih]
      simp only [bind_assoc, pure_bind, List.append_assoc]
  | case5 rest _ ih =>
      rw [List.cons_append, readLexemes_delimiter, readLexemes_delimiter]
      exact ih
  | case6 x rest hrest hx ih =>
      have hnone : ∀ y rest', rest = .raw '-' :: y :: rest' → y = .raw d :=
        fun y rest' heq => absurd heq (hrest y rest')
      have hjoined : ∀ y rest', rest ++ .raw d :: second = .raw '-' :: y :: rest' → y = .raw d :=
        fun _ _ heq => eq_raw_of_append_eq hdash hrest heq
      rw [List.cons_append, readLexemes_symbol hx hjoined, readLexemes_symbol hx hnone, ih]
      simp only [map_eq_pure_bind, bind_assoc, pure_bind, List.cons_append]

/-! ## §3. Parts. -/

/-- A text that is read lexeme by lexeme: it has several characters, and they are
not all blank. -/
structure IsPart (text : String) : Prop where
  two_le_length : 2 ≤ text.toList.length
  not_blank : ¬ Text.isBlankText text.toList = true

theorem IsPart.append {text : String} (h : IsPart text) (rest : String) :
    IsPart (text ++ rest) where
  two_le_length := by
    have hlength := h.two_le_length
    rw [String.toList_append, List.length_append]
    omega
  not_blank := by
    intro hblank
    rw [String.toList_append, Text.isBlankText, List.all_append, Bool.and_eq_true] at hblank
    exact h.not_blank hblank.1

theorem IsPart.symbolsOfText {text : String} (h : IsPart text) (d : Char) :
    symbolsOfText d text.toList = readLexemes d (significantLexemes d text.toList) := by
  rw [symbolsOfText_of_two_le h.two_le_length]
  simp only [if_neg h.not_blank, id_map']

/-- **Two parts are read as the union of both**, and only if both can be read. -/
theorem readBy_join_iff {d : Char} (hgap : isGap d = false) (hdash : d ≠ '-')
    (hbackslash : d ≠ '\\') {first second : String} (hfirst : IsPart first)
    (hsecond : IsPart second) (hclosed : finalBackslashes first.toList % 2 = 0)
    {s : SymbolSet} :
    readBy d (first ++ String.singleton d ++ second) = .ok s
      ↔ ∃ t u, readBy d first = .ok t ∧ readBy d second = .ok u ∧ s = t ∪ u := by
  have hjoined : symbolsOfText d (first ++ String.singleton d ++ second).toList = (do
      let symbols ← symbolsOfText d first.toList
      let symbols' ← symbolsOfText d second.toList
      return symbols ++ symbols') := by
    rw [((hfirst.append _).append second).symbolsOfText, hfirst.symbolsOfText,
      hsecond.symbolsOfText, ← readLexemes_append hdash]
    simp only [significantLexemes_eq hbackslash]
    rw [String.toList_append, String.toList_append, String.toList_singleton, List.append_assoc,
      lexemes_append hclosed, List.singleton_append, lexemes_cons hbackslash, List.filter_append,
      List.filter_cons_of_pos (by simp [Lexeme.isGap, hgap])]
  simp only [readBy_eq_ok_iff, hjoined, bind_eq_ok]
  constructor
  · rintro ⟨joined, ⟨symbols, hread, symbols', hread', hboth⟩, hs⟩
    injection hboth with hboth
    subst hboth
    -- Each part lists symbols of the set, so they are all allowed.
    have hle : ∀ {l}, l ⊆ symbols ++ symbols' → ∀ x ∈ OrderedSet.ofList l, x.isAllowed = true := by
      intro l hl x hx
      exact s.allowed x ((hs x).2 (hl (OrderedSet.mem_ofList.1 hx)))
    refine ⟨⟨_, hle (List.subset_append_left _ _)⟩, ⟨_, hle (List.subset_append_right _ _)⟩,
      ⟨symbols, hread, fun x => OrderedSet.mem_ofList⟩,
      ⟨symbols', hread', fun x => OrderedSet.mem_ofList⟩, ?_⟩
    ext x
    rw [hs, List.mem_append, mem_union]
    exact or_congr OrderedSet.mem_ofList.symm OrderedSet.mem_ofList.symm
  · rintro ⟨t, u, ⟨symbols, hread, ht⟩, ⟨symbols', hread', hu⟩, rfl⟩
    refine ⟨_, ⟨symbols, hread, symbols', hread', rfl⟩, fun x => ?_⟩
    rw [mem_union, ht, hu, List.mem_append]

theorem read_join_iff {first second : String} (hfirst : IsPart first) (hsecond : IsPart second)
    (hclosed : finalBackslashes first.toList % 2 = 0) {s : SymbolSet} :
    read (first ++ "," ++ second) = .ok s
      ↔ ∃ t u, read first = .ok t ∧ read second = .ok u ∧ s = t ∪ u :=
  readBy_join_iff (by decide) (by decide) (by decide) hfirst hsecond hclosed

/-- A list with the members of another has some if that has. -/
theorem ne_nil_of_mem_iff {α : Type} {l l' : List α} (h : ∀ x, x ∈ l ↔ x ∈ l') (hl : l ≠ []) :
    l' ≠ [] := by
  obtain ⟨x, hx⟩ := List.exists_mem_of_ne_nil l hl
  exact List.ne_nil_of_mem ((h x).1 hx)

section Parts

variable {parts : List String}

theorem isPart_intercalate (hsome : parts ≠ []) (hparts : ∀ p ∈ parts, IsPart p) :
    IsPart (",".intercalate parts) := by
  match parts with
  | [] => exact absurd rfl hsome
  | [p] =>
      rw [String.intercalate_singleton]
      exact hparts p List.mem_cons_self
  | p :: q :: parts =>
      rw [String.intercalate_cons_cons, String.append_assoc]
      exact (hparts p List.mem_cons_self).append _

/-- A text of parts is read as the union of what the parts are read as. -/
theorem read_intercalate (hsome : parts ≠ [])
    (hparts : ∀ p ∈ parts, IsPart p ∧ finalBackslashes p.toList % 2 = 0)
    {f : String → SymbolSet} (hread : ∀ p ∈ parts, read p = .ok (f p)) :
    read (",".intercalate parts) = .ok (unionAll (parts.map f)) := by
  induction parts with
  | nil => exact absurd rfl hsome
  | cons p parts ih =>
      obtain ⟨⟨hp, hclosed⟩, hrest⟩ := List.forall_mem_cons.1 hparts
      obtain ⟨hreadp, hreadRest⟩ := List.forall_mem_cons.1 hread
      cases parts with
      | nil =>
          have hone : unionAll [f p] = f p := by ext x; simp
          rw [String.intercalate_singleton, hreadp, List.map_singleton, hone]
      | cons q parts =>
          have hunion : unionAll ((p :: q :: parts).map f)
              = f p ∪ unionAll ((q :: parts).map f) := by ext x; simp
          have hjoined := isPart_intercalate (List.cons_ne_nil q parts) fun r hr => (hrest r hr).1
          rw [String.intercalate_cons_cons, hunion, read_join_iff hp hjoined hclosed]
          exact ⟨_, _, hreadp, ih (List.cons_ne_nil q parts) hrest hreadRest, rfl⟩

/-- A text of parts can be read only if each of the parts can. -/
theorem exists_read_of_intercalate
    (hparts : ∀ p ∈ parts, IsPart p ∧ finalBackslashes p.toList % 2 = 0)
    {s : SymbolSet} (hread : read (",".intercalate parts) = .ok s) :
    ∀ p ∈ parts, ∃ t, read p = .ok t := by
  induction parts generalizing s with
  | nil => exact nofun
  | cons p parts ih =>
      obtain ⟨⟨hp, hclosed⟩, hrest⟩ := List.forall_mem_cons.1 hparts
      cases parts with
      | nil =>
          rw [String.intercalate_singleton] at hread
          exact List.forall_mem_singleton.2 ⟨s, hread⟩
      | cons q parts =>
          have hjoined := isPart_intercalate (List.cons_ne_nil q parts) fun r hr => (hrest r hr).1
          rw [String.intercalate_cons_cons, read_join_iff hp hjoined hclosed] at hread
          obtain ⟨t, u, ht, hu, _⟩ := hread
          exact List.forall_mem_cons.2 ⟨⟨t, ht⟩, ih hrest hu⟩

/-- Parts may change places and may be repeated or left out where they are there
anyway. -/
theorem read_intercalate_of_mem_iff {parts' : List String} (hsome : parts ≠ [])
    (hparts : ∀ p ∈ parts, IsPart p ∧ finalBackslashes p.toList % 2 = 0)
    (hmem : ∀ p, p ∈ parts ↔ p ∈ parts') {s : SymbolSet}
    (hread : read (",".intercalate parts) = .ok s) : read (",".intercalate parts') = .ok s := by
  let f (p : String) : SymbolSet := (read p).toOption.getD ∅
  have hf : ∀ p ∈ parts, read p = .ok (f p) := by
    intro p hp
    obtain ⟨t, ht⟩ := exists_read_of_intercalate hparts hread p hp
    have hfp : f p = t := congrArg (fun r => (Except.toOption r).getD ∅) ht
    rw [hfp, ht]
  have hsame : unionAll (parts'.map f) = s := by
    rw [read_intercalate hsome hparts hf] at hread
    injection hread with hread
    rw [← hread]
    ext x
    simp [hmem]
  rw [read_intercalate (ne_nil_of_mem_iff hmem hsome) (fun p hp => hparts p ((hmem p).2 hp))
    (fun p hp => hf p ((hmem p).2 hp)), hsame]

end Parts

/-- **Symbol text is read part by part.**  Two parts with a comma between them can be
read iff each of them can, and then as the union of both; so texts of the same
parts are read alike, whatever the order of the parts and however often they are
repeated.  A part has several characters, not all of them blank, and it does not end
in a backslash that escapes nothing. -/
theorem read_parts :
    (∀ first second : String, IsPart first → IsPart second →
      finalBackslashes first.toList % 2 = 0 →
        ((∃ s, read (first ++ "," ++ second) = .ok s)
          ↔ (∃ t, read first = .ok t) ∧ ∃ u, read second = .ok u)
        ∧ ∀ t u, read first = .ok t → read second = .ok u →
            read (first ++ "," ++ second) = .ok (t ∪ u))
    ∧ ∀ parts parts' : List String, parts ≠ [] →
        (∀ p ∈ parts, IsPart p ∧ finalBackslashes p.toList % 2 = 0) →
        (∀ p, p ∈ parts ↔ p ∈ parts') →
          ∀ s, read (",".intercalate parts) = .ok s ↔ read (",".intercalate parts') = .ok s := by
  constructor
  · intro first second hfirst hsecond hclosed
    constructor
    · constructor
      · rintro ⟨s, hs⟩
        obtain ⟨t, u, ht, hu, _⟩ := (read_join_iff hfirst hsecond hclosed).1 hs
        exact ⟨⟨t, ht⟩, u, hu⟩
      · rintro ⟨⟨t, ht⟩, u, hu⟩
        exact ⟨t ∪ u, (read_join_iff hfirst hsecond hclosed).2 ⟨t, u, ht, hu, rfl⟩⟩
    · intro t u ht hu
      exact (read_join_iff hfirst hsecond hclosed).2 ⟨t, u, ht, hu, rfl⟩
  · intro parts parts' hsome hparts hmem s
    exact ⟨read_intercalate_of_mem_iff hsome hparts hmem,
      read_intercalate_of_mem_iff (ne_nil_of_mem_iff hmem hsome) (fun p hp => hparts p ((hmem p).2 hp))
        fun p => (hmem p).symm⟩

/-- Three letters. -/
def abc : SymbolSet := ⟨.ofList [.char 'a', .char 'b', .char 'c'], by decide⟩

/-- A letter and the backslash. -/
def xBackslash : SymbolSet := ⟨.ofList [.char 'x', .char '\\'], by decide⟩

/-- A range before the comma, and behind it a backslash that stays open at the end. -/
theorem read_parts_rangeAndBackslash :
    IsPart "a-c" ∧ IsPart "x\\" ∧ finalBackslashes "a-c".toList % 2 = 0
      ∧ read "a-c" = .ok abc ∧ read "x\\" = .ok xBackslash
      ∧ read "a-c,x\\" = .ok (abc ∪ xBackslash)
      ∧ ∀ s, read "a-c,xy,a-c" = .ok s ↔ read "xy,a-c" = .ok s := by
  have hrange : IsPart "a-c" := ⟨by decide, by decide⟩
  have hletters : IsPart "xy" := ⟨by decide, by decide⟩
  have hopen : IsPart "x\\" := ⟨by decide, by decide⟩
  have habc : read "a-c" = .ok abc := by decide +kernel
  have hx : read "x\\" = .ok xBackslash := by decide +kernel
  obtain ⟨htwo, hmany⟩ := read_parts
  obtain ⟨_, hunion⟩ := htwo "a-c" "x\\" hrange hopen (by decide)
  refine ⟨hrange, hopen, by decide, habc, hx, hunion abc xBackslash habc hx, ?_⟩
  apply hmany ["a-c", "xy", "a-c"] ["xy", "a-c"] nofun
  · simp only [List.forall_mem_cons]
    exact ⟨⟨hrange, by decide⟩, ⟨hletters, by decide⟩, ⟨hrange, by decide⟩, nofun⟩
  · intro p
    simp only [List.mem_cons, List.not_mem_nil, or_false]
    tauto

/-! ## §4. Blanks that do not count. -/

/-- `DropsGaps escapes text text'`: the second text is the first one without some of
its gaps.  From left to right, a backslash keeps the character behind it if it escapes. -/
inductive DropsGaps (escapes : Bool) : List Char → List Char → Prop
  | nil : DropsGaps escapes [] []
  /-- A backslash at the end has nothing to keep. -/
  | lone : DropsGaps escapes ['\\'] ['\\']
  | escape (c : Char) {text text' : List Char} (h : DropsGaps escapes text text') :
      DropsGaps escapes ('\\' :: c :: text) ('\\' :: c :: text')
  | keep {c : Char} {text text' : List Char} (hc : escapes = true → c ≠ '\\')
      (h : DropsGaps escapes text text') : DropsGaps escapes (c :: text) (c :: text')
  | drop {c : Char} {text text' : List Char} (hc : isGap c = true)
      (h : DropsGaps escapes text text') : DropsGaps escapes (c :: text) text'

/-- Where a backslash does not escape it is a lexeme like any character. -/
theorem lexemes_keep {escapes : Bool} {c : Char} (hc : escapes = true → c ≠ '\\')
    (rest : List Char) : lexemes escapes (c :: rest) = .raw c :: lexemes escapes rest := by
  cases escapes with
  | true => exact lexemes_cons (hc rfl) true rest
  | false =>
      cases rest with
      | nil => rfl
      | cons e rest => simp [lexemes]

namespace DropsGaps

variable {escapes : Bool} {text text' : List Char}

theorem length_le (h : DropsGaps escapes text text') : text'.length ≤ text.length := by
  induction h with
  | nil => exact Nat.le_refl _
  | lone => exact Nat.le_refl _
  | escape c _ ih => simpa using ih
  | keep _ _ ih => simpa using ih
  | drop _ _ ih => exact Nat.le_succ_of_le ih

theorem isBlankText_eq (h : DropsGaps escapes text text') :
    Text.isBlankText text = Text.isBlankText text' := by
  unfold Text.isBlankText
  induction h with
  | nil => rfl
  | lone => rfl
  | escape c _ ih => rw [List.all_cons, List.all_cons, List.all_cons, List.all_cons, ih]
  | keep _ _ ih => rw [List.all_cons, List.all_cons, ih]
  | drop hc _ ih => rw [List.all_cons, isBlank_of_isGap hc, Bool.true_and, ih]

/-- The lexemes that count stay the same. -/
theorem filter_lexemes_eq (h : DropsGaps escapes text text') :
    (lexemes escapes text).filter (!·.isGap) = (lexemes escapes text').filter (!·.isGap) := by
  induction h with
  | nil => rfl
  | lone => rfl
  | escape c _ ih =>
      cases escapes with
      | true => rw [lexemes_escape, lexemes_escape, List.filter_cons, List.filter_cons, ih]
      | false =>
          have hkeep : ∀ c rest, lexemes false (c :: rest) = .raw c :: lexemes false rest :=
            fun _ => lexemes_keep nofun
          simp only [hkeep, List.filter_cons, ih]
  | keep hc _ ih =>
      rw [lexemes_keep hc, lexemes_keep hc, List.filter_cons, List.filter_cons, ih]
  | drop hc _ ih =>
      rw [lexemes_keep fun _ => ne_backslash_of_isGap hc,
        List.filter_cons_of_neg (by simp [Lexeme.isGap, hc]), ih]

end DropsGaps

/-- **Blanks that are not escaped do not count.**  A text without some of them, but of
at least two characters, is read like the text, by any delimiter: as the same set or
with the same refusal.  By the backslash as a delimiter nothing is escaped. -/
theorem readWith_of_dropsGaps {d : Char} {text text' : String}
    (h : DropsGaps (d ≠ '\\') text.toList text'.toList) (hlength : 2 ≤ text'.toList.length) :
    readWith (String.singleton d) text = readWith (String.singleton d) text' := by
  have hlexemes : significantLexemes d text.toList = significantLexemes d text'.toList :=
    h.filter_lexemes_eq
  have hsymbols : symbolsOfText d text.toList = symbolsOfText d text'.toList := by
    rw [symbolsOfText_of_two_le (Nat.le_trans hlength h.length_le),
      symbolsOfText_of_two_le hlength, hlexemes, h.isBlankText_eq]
  rw [readWith_singleton, readWith_singleton]
  unfold readBy
  rw [hsymbols]

/-- Blanks around a dash and a comma go, and the escaped one stays; by the backslash as
a delimiter it goes, too. -/
theorem readWith_of_dropsGaps_range :
    DropsGaps (',' ≠ '\\') "a - c,\t\\ ".toList "a-c,\\ ".toList
      ∧ DropsGaps ('\\' ≠ '\\') "a - c,\t\\ ".toList "a-c,\\".toList
      ∧ 2 ≤ "a-c,\\ ".toList.length ∧ 2 ≤ "a-c,\\".toList.length
      ∧ readWith "," "a - c,\t\\ " = readWith "," "a-c,\\ "
      ∧ readWith "\\" "a - c,\t\\ " = readWith "\\" "a-c,\\" := by
  have hcomma : DropsGaps (',' ≠ '\\') "a - c,\t\\ ".toList "a-c,\\ ".toList :=
    .keep (by decide) <| .drop (by decide) <| .keep (by decide) <| .drop (by decide) <|
      .keep (by decide) <| .keep (by decide) <| .drop (by decide) <| .escape ' ' .nil
  have hbackslash : DropsGaps ('\\' ≠ '\\') "a - c,\t\\ ".toList "a-c,\\".toList :=
    .keep (by decide) <| .drop (by decide) <| .keep (by decide) <| .drop (by decide) <|
      .keep (by decide) <| .keep (by decide) <| .drop (by decide) <| .keep (by decide) <|
        .drop (by decide) .nil
  exact ⟨hcomma, hbackslash, by decide, by decide,
    readWith_of_dropsGaps (d := ',') hcomma (by decide),
    readWith_of_dropsGaps (d := '\\') hbackslash (by decide)⟩

end FiniteAutomata.SymbolSet
