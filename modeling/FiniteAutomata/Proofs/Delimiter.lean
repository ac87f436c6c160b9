/-
  FiniteAutomata.Proofs.Delimiter
  ───────────────────────────────
  **WHICH DELIMITERS READ BACK.**

  A set can be written with any character between its tokens, as long as that has
  an escape, and the text is meant to be read as the set by the same character.
  Four kinds of delimiter break this:

      -        stands between two tokens as it stands in a range
      \        escapes nothing while it delimits
      ε        the empty symbol is passed over as if it delimited
      blanks   a text of nothing else gains the empty symbol

  Main statement: for all characters but the dash and the backslash the text reads
  back, except in the last two cases (`readWith_textWith_iff`).
-/
import FiniteAutomata.Proofs.SymbolText

namespace FiniteAutomata.SymbolSet

/-! ## §1. Blank tokens. -/

/-- Whether a symbol is a blank that counts: it is no gap of symbol text, and yet a
text of such symbols is blank. -/
def isBlankSymbol : Symbol → Bool
  | .empty => false
  | .char c => Text.isBlank c && !isGap c

theorem isBlankSymbol_char {c : Char} :
    isBlankSymbol (.char c) = true ↔ Text.isBlank c = true ∧ isGap c = false := by
  rw [isBlankSymbol, Bool.and_eq_true, Bool.not_eq_true']

theorem isBlank_eq_false_of_block {block : CharRange} (hb : block ∈ Symbol.blocks) {c : Char}
    (hc : block.contains c = true) : Text.isBlank c = false := by
  have hapart : ∀ r ∈ Symbol.blocks, ∀ r' ∈ Text.blankRanges,
      r.last < r'.first ∨ r'.last < r.first := by decide
  unfold Text.isBlank CharRange.covers
  rw [List.any_eq_false]
  intro r hr hin
  rw [CharRange.contains_iff] at hc hin
  have hdisjoint := hapart block hb r hr
  omega

section Reserved

variable {reserved : List Char} {c : Char}

theorem isBlankText_append (u v : List Char) :
    Text.isBlankText (u ++ v) = (Text.isBlankText u && Text.isBlankText v) :=
  List.all_append

/-- A blank that counts is written as it is. -/
theorem escapeChar_of_blank (hc : isBlankSymbol (.char c) = true) (hr : c ∉ reserved) :
    escapeChar reserved c = [c] := by
  unfold escapeChar
  split
  case h_12 => exact if_neg hr
  all_goals exact absurd hc (by decide)

/-- What is written for a character is blank only if that is a blank that counts. -/
theorem isBlankText_escapeChar :
    Text.isBlankText (escapeChar reserved c) = true
      ↔ isBlankSymbol (.char c) = true ∧ c ∉ reserved := by
  have hbackslash : ∀ e, Text.isBlankText ['\\', e] = false := by
    intro e
    simp [Text.isBlankText, show Text.isBlank '\\' = false by decide]
  constructor
  · intro h
    unfold escapeChar at h
    split at h
    case h_6 => exact absurd h (by decide)
    case h_12 _ _ _ _ _ hspace hnewline hreturn htab hfeed hvtab =>
      have hgap := isGap_eq_false hspace htab hnewline hreturn hfeed hvtab
      by_cases hr : c ∈ reserved
      · rw [if_pos hr, hbackslash] at h
        cases h
      · rw [if_neg hr] at h
        have hblank : Text.isBlank c = true := by simpa [Text.isBlankText] using h
        exact ⟨isBlankSymbol_char.2 ⟨hblank, hgap⟩, hr⟩
    all_goals rw [hbackslash] at h; cases h
  · intro h
    rw [escapeChar_of_blank h.1 h.2]
    simp [Text.isBlankText, (isBlankSymbol_char.1 h.1).1]

theorem escapeChar_ne_nil (reserved : List Char) (c : Char) : escapeChar reserved c ≠ [] := by
  unfold escapeChar
  split
  case h_12 => split <;> nofun
  all_goals nofun

end Reserved

namespace Token

theorem length_spelling_pos (reserved : List Char) (t : Token) :
    0 < (t.spelling reserved).length := by
  apply List.length_pos_of_ne_nil
  cases t with
  | empty => nofun
  | char c => exact escapeChar_ne_nil reserved c
  | range first last => exact fun h => escapeChar_ne_nil reserved first (List.append_eq_nil_iff.1 h).1

/-- A blank token is a single character, written as it is. -/
theorem exists_char_of_blank {reserved : List Char} {t : Token}
    (h : Text.isBlankText (t.spelling reserved) = true) :
    ∃ c, t = .char c ∧ t.spelling reserved = [c] := by
  cases t with
  | empty => exact absurd (show Text.isBlankText ['ε'] = true from h) (by decide)
  | char c =>
      obtain ⟨hc, hr⟩ := isBlankText_escapeChar.1 h
      exact ⟨c, rfl, escapeChar_of_blank hc hr⟩
  | range first last =>
      rw [spelling, ← List.singleton_append, isBlankText_append, isBlankText_append] at h
      rw [show Text.isBlankText ['-'] = false by decide] at h
      simp at h

/-- A token is blank iff what it stands for are blanks that count, other than the
delimiter. -/
theorem isBlankText_spelling {d : Char} (h : Delimits [d] d) {t : Token} (ht : t.Valid) :
    Text.isBlankText (t.spelling (reservedChars [d])) = true
      ↔ ∀ x ∈ t.symbols, isBlankSymbol x = true ∧ x ≠ .char d := by
  cases t with
  | empty =>
      refine iff_of_false ?_ fun hall => ?_
      · show ¬ Text.isBlankText ['ε'] = true
        decide
      · exact absurd (hall .empty (List.mem_singleton.2 rfl)).1 (by decide)
  | char c =>
      rw [spelling, isBlankText_escapeChar]
      simp only [symbols, List.mem_singleton, forall_eq]
      refine and_congr_right fun hc => ?_
      -- The delimiter is reserved, unless it is a gap; then it is no blank that counts.
      have hgap : isGap c = false := (isBlankSymbol_char.1 hc).2
      constructor
      · intro hr hcd
        injection hcd with hcd
        subst hcd
        exact hr (h.mem_reservedChars hgap)
      · intro hcd hr
        have hmem : c ∈ [d] := (List.mem_filter.1 hr).1
        exact hcd (congrArg Symbol.char (List.mem_singleton.1 hmem))
  | range first last =>
      refine iff_of_false ?_ fun hall => ?_
      · intro hblank
        obtain ⟨c, hc, _⟩ := exists_char_of_blank hblank
        cases hc
      · obtain ⟨block, hblock, hfirst, _, hle⟩ := ht
        have hmem : Symbol.char first ∈ charsBetween first last := by
          refine List.mem_map.2 ⟨first.toNat, List.mem_range'_1.2 (by omega), ?_⟩
          rw [Char.ofNat_toNat]
        have hblank := (hall _ hmem).1
        rw [isBlankSymbol, isBlank_eq_false_of_block hblock hfirst] at hblank
        cases hblank

end Token

/-! ## §2. Blank texts. -/

/-- A text of tokens is blank iff they all are, and the delimiter is if there is one. -/
theorem isBlankText_spell {delimiter : List Char} {ts : List Token} :
    Text.isBlankText (spell delimiter ts) = true
      ↔ (∀ t ∈ ts, Text.isBlankText (t.spelling (reservedChars delimiter)) = true)
        ∧ (2 ≤ ts.length → Text.isBlankText delimiter = true) := by
  induction ts with
  | nil => exact iff_of_true rfl ⟨nofun, nofun⟩
  | cons t ts ih =>
      cases ts with
      | nil =>
          rw [spell_singleton]
          simp
      | cons t' ts =>
          rw [spell_cons_cons, isBlankText_append, isBlankText_append, Bool.and_eq_true,
            Bool.and_eq_true, ih, List.forall_mem_cons (a := t)]
          simp only [List.length_cons]
          constructor
          · intro h
            exact ⟨⟨h.1, h.2.2.1⟩, fun _ => h.2.1⟩
          · intro h
            have hd := h.2 (by omega)
            exact ⟨h.1.1, hd, h.1.2, fun _ => hd⟩

/-- A text of blank tokens has one character iff it has one token. -/
theorem length_spell_ne_one_iff {delimiter : List Char} {ts : List Token} (hsome : ts ≠ [])
    (hblank : ∀ t ∈ ts, Text.isBlankText (t.spelling (reservedChars delimiter)) = true) :
    (spell delimiter ts).length ≠ 1 ↔ 2 ≤ ts.length := by
  match ts with
  | [] => exact absurd rfl hsome
  | [t] =>
      obtain ⟨c, _, hspelling⟩ := Token.exists_char_of_blank (hblank t List.mem_cons_self)
      rw [spell_singleton, hspelling]
      simp
  | t :: t' :: ts =>
      refine iff_of_true ?_ (by simp)
      have hfirst := t.length_spelling_pos (reservedChars delimiter)
      have hsecond : 0 < (spell delimiter (t' :: ts)).length := by
        have hpos := t'.length_spelling_pos (reservedChars delimiter)
        cases ts with
        | nil => rwa [spell_singleton]
        | cons t'' ts =>
            rw [spell_cons_cons, List.length_append]
            omega
      rw [spell_cons_cons, List.length_append, List.length_append]
      omega

/-- A set with several members. -/
def Several (s : SymbolSet) : Prop := ∃ x ∈ s, ∃ y ∈ s, x ≠ y

/-- Single characters that stand for the members of a set are as many as these. -/
theorem two_le_length_iff {s : SymbolSet} {ts : List Token}
    (hchar : ∀ t ∈ ts, ∃ c, t = .char c) (hnodup : (ts.flatMap Token.symbols).Nodup)
    (hmem : ∀ x, x ∈ ts.flatMap Token.symbols ↔ x ∈ s) : 2 ≤ ts.length ↔ s.Several := by
  match ts with
  | [] =>
      refine iff_of_false (by simp) ?_
      rintro ⟨x, hx, _⟩
      exact absurd ((hmem x).2 hx) List.not_mem_nil
  | [t] =>
      obtain ⟨c, rfl⟩ := hchar t List.mem_cons_self
      refine iff_of_false (by simp) ?_
      rintro ⟨x, hx, y, hy, hxy⟩
      have hx' : x = .char c := by simpa [Token.symbols] using (hmem x).2 hx
      have hy' : y = .char c := by simpa [Token.symbols] using (hmem y).2 hy
      exact hxy (hx'.trans hy'.symm)
  | t :: t' :: ts =>
      obtain ⟨c, rfl⟩ := hchar t List.mem_cons_self
      obtain ⟨c', rfl⟩ := hchar t' (List.mem_cons_of_mem _ List.mem_cons_self)
      refine iff_of_true (by simp) ⟨.char c, ?_, .char c', ?_, ?_⟩
      · exact (hmem _).1 (by simp [Token.symbols])
      · exact (hmem _).1 (by simp [Token.symbols])
      · intro hcc
        rw [List.flatMap_cons, List.flatMap_cons] at hnodup
        have hnot : Symbol.char c ∉ [Symbol.char c'] ++ ts.flatMap Token.symbols :=
          (List.nodup_cons.1 hnodup).1
        exact hnot (List.mem_append_left _ (List.mem_singleton.2 hcc))

/-- **When the text of a set reads blank.**  There are several symbols, all of them
blanks that count and not the delimiter, and the delimiter is blank itself. -/
theorem readsBlank_render_iff {d : Char} (h : Delimits [d] d) {s : SymbolSet} (hs : s ≠ ∅) :
    readsBlank (s.render [d] true).toList = true
      ↔ Text.isBlank d = true ∧ s.Several
        ∧ ∀ x ∈ s, isBlankSymbol x = true ∧ x ≠ .char d := by
  obtain ⟨ts, hts, htext, hnodup, hsymbols⟩ := exists_spell [d] true s
  have hmem : ∀ x, x ∈ ts.flatMap Token.symbols ↔ x ∈ s := by simpa using hsymbols
  have hsome : ts ≠ [] := tokens_ne_nil hs hmem
  have hdelimiter : Text.isBlankText [d] = Text.isBlank d := by simp [Text.isBlankText]
  -- The tokens are blank iff the symbols are.
  have hall : (∀ t ∈ ts, Text.isBlankText (t.spelling (reservedChars [d])) = true)
      ↔ ∀ x ∈ s, isBlankSymbol x = true ∧ x ≠ .char d := by
    constructor
    · intro hblank x hx
      obtain ⟨t, ht, hxt⟩ := List.mem_flatMap.1 ((hmem x).2 hx)
      exact (Token.isBlankText_spelling h (hts t ht)).1 (hblank t ht) x hxt
    · intro hblank t ht
      refine (Token.isBlankText_spelling h (hts t ht)).2 fun x hx => ?_
      exact hblank x ((hmem x).1 (List.mem_flatMap.2 ⟨t, ht, hx⟩))
  rw [htext, readsBlank, Bool.and_eq_true, decide_eq_true_iff, isBlankText_spell, hdelimiter,
    ← hall]
  by_cases hblank : ∀ t ∈ ts, Text.isBlankText (t.spelling (reservedChars [d])) = true
  · have hchar : ∀ t ∈ ts, ∃ c, t = .char c := by
      intro t ht
      obtain ⟨c, hc, _⟩ := Token.exists_char_of_blank (hblank t ht)
      exact ⟨c, hc⟩
    rw [length_spell_ne_one_iff hsome hblank, two_le_length_iff hchar hnodup hmem]
    exact ⟨fun hread => ⟨hread.2.2 hread.1, hread.1, hread.2.1⟩,
      fun hread => ⟨hread.2.1, hread.2.2, fun _ => hread.1⟩⟩
  · exact iff_of_false (fun hread => hblank hread.2.1) (fun hread => hblank hread.2.2)

/-! ## §3. The empty symbol as delimiter. -/

theorem delimits_epsilon : Delimits ['ε'] 'ε' :=
  ⟨⟨[], rfl, nofun⟩, by decide, by decide, by decide⟩

theorem mem_withoutEmpty_iff {s : SymbolSet} (x : Symbol) :
    x ∈ s.withoutEmpty ↔ x ∈ s ∧ (false = true ∨ x ≠ .empty) := by simp

/-- The empty symbol is written before the rest of a set. -/
theorem toList_render_epsilon {s : SymbolSet} (hempty : .empty ∈ s) (hsome : s.withoutEmpty ≠ ∅) :
    (s.render ['ε'] true).toList = 'ε' :: 'ε' :: (s.render ['ε'] false).toList := by
  obtain ⟨ts, _, htokens, _, hsymbols⟩ := exists_tokens ['ε'] false s
  have hcons : tokens ['ε'] true s = ['ε'] :: tokens ['ε'] false s := by
    have hhas : s.hasEmpty = true := has_iff.2 hempty
    simp [tokens, hhas]
  have hne : tokens ['ε'] false s ≠ [] := by
    rw [htokens, ne_eq, List.map_eq_nil_iff]
    exact tokens_ne_nil hsome fun x => (hsymbols x).trans (mem_withoutEmpty_iff x).symm
  unfold render
  rw [String.toList_ofList, String.toList_ofList, hcons]
  cases htail : tokens ['ε'] false s with
  | nil => exact absurd htail hne
  | cons u us =>
      rw [List.intercalate_cons_cons]
      rfl

/-- A delimiter that stands for the empty symbol is passed over, so the empty symbol
is lost unless it stands alone. -/
theorem readBy_render_epsilon {s : SymbolSet} (hempty : .empty ∈ s)
    (hsome : s.withoutEmpty ≠ ∅) :
    readBy 'ε' (s.render ['ε'] true) = .ok s.withoutEmpty := by
  obtain ⟨ts, hts, htext, _, hsymbols⟩ := exists_spell ['ε'] false s
  have hmem : ∀ x, x ∈ ts.flatMap Token.symbols ↔ x ∈ s.withoutEmpty :=
    fun x => (hsymbols x).trans (mem_withoutEmpty_iff x).symm
  have hnot : .empty ∉ ts := by
    intro hin
    have hlost := (hmem .empty).1 (List.mem_flatMap.2 ⟨.empty, hin, List.mem_singleton.2 rfl⟩)
    exact (mem_withoutEmpty.1 hlost).2 rfl
  obtain ⟨hread, _⟩ := readLexemes_spell delimits_epsilon hts fun _ => hnot
  -- Both signs before the rest are read as delimiters.
  have hsignificant : ∀ text, significantLexemes 'ε' ('ε' :: 'ε' :: text)
      = .raw 'ε' :: .raw 'ε' :: significantLexemes 'ε' text := by
    intro text
    rw [significantLexemes_eq (by decide), significantLexemes_eq (by decide),
      lexemes_cons (by decide), lexemes_cons (by decide)]
    rfl
  have hboth : readLexemes 'ε' (significantLexemes 'ε' ('ε' :: 'ε' :: spell ['ε'] ts))
      = .ok (ts.flatMap Token.symbols) := by
    rw [hsignificant, readLexemes_delimiter, readLexemes_delimiter, hread]
  have hvisible : readsBlank ('ε' :: 'ε' :: spell ['ε'] ts) = false := by
    simp [readsBlank, Text.isBlankText, show Text.isBlank 'ε' = false by decide]
  unfold readBy
  rw [toList_render_epsilon hempty hsome, htext, symbolsOfText_eq (flatMap_symbols_ne_nil hsome hmem) hboth, hvisible]
  exact ofSymbols_ofList hmem

theorem several_iff_of_empty_mem {s : SymbolSet} (hempty : .empty ∈ s) :
    s.Several ↔ s.withoutEmpty ≠ ∅ := by
  constructor
  · intro h
    obtain ⟨x, hx, y, hy, hxy⟩ := h
    by_cases hx' : x = .empty
    · exact ne_nothing_of_mem (mem_withoutEmpty.2 ⟨hy, fun hy' => hxy (hx'.trans hy'.symm)⟩)
    · exact ne_nothing_of_mem (mem_withoutEmpty.2 ⟨hx, hx'⟩)
  · intro h
    obtain ⟨x, hx⟩ := exists_mem h
    obtain ⟨hx, hne⟩ := mem_withoutEmpty.1 hx
    exact ⟨x, hx, .empty, hempty, hne⟩

/-- The empty symbol alone is written as one character, which is taken literally. -/
theorem readBy_render_onlyEmpty : readBy 'ε' (onlyEmpty.render ['ε'] true) = .ok onlyEmpty := by
  decide +kernel

theorem eq_onlyEmpty {s : SymbolSet} (hempty : .empty ∈ s) (hrest : s.withoutEmpty = ∅) :
    s = onlyEmpty := by
  ext x
  rw [mem_onlyEmpty]
  constructor
  · intro hx
    apply Classical.byContradiction
    intro hne
    exact ne_nothing_of_mem (mem_withoutEmpty.2 ⟨hx, hne⟩) hrest
  · rintro rfl
    exact hempty

theorem readBy_render_epsilon_iff {s : SymbolSet} (hempty : .empty ∈ s) :
    (∃ t, readBy 'ε' (s.render ['ε'] true) = .ok t)
      ∧ (readBy 'ε' (s.render ['ε'] true) = .ok s ↔ ¬ s.Several) := by
  rw [several_iff_of_empty_mem hempty]
  by_cases hrest : s.withoutEmpty = ∅
  · have hread : readBy 'ε' (s.render ['ε'] true) = .ok s :=
      eq_onlyEmpty hempty hrest ▸ readBy_render_onlyEmpty
    exact ⟨⟨s, hread⟩, iff_of_true hread fun hne => hne hrest⟩
  · rw [readBy_render_epsilon hempty hrest]
    refine ⟨⟨_, rfl⟩, iff_of_false ?_ fun hnot => hnot hrest⟩
    intro hsame
    injection hsame with hsame
    exact (mem_withoutEmpty.1 (hsame.symm ▸ hempty)).2 rfl

/-! ## §4. Delimiters of the caller's choice. -/

/-- Where the delimiter is no token, the text reads back unless it is blank. -/
theorem readBy_render_iff {d : Char} (h : Delimits [d] d) {s : SymbolSet} (hs : s ≠ ∅)
    (hempty : d = 'ε' → .empty ∉ s) :
    (∃ t, readBy d (s.render [d] true) = .ok t)
      ∧ (readBy d (s.render [d] true) = .ok s
        ↔ ¬ readsBlank (s.render [d] true).toList = true) := by
  rw [readBy_render h (t := s) (by simp) hs hempty]
  refine ⟨⟨_, rfl⟩, ?_⟩
  by_cases hblank : readsBlank (s.render [d] true).toList = true
  · rw [if_pos hblank, Except.ok.injEq]
    refine iff_of_false ?_ fun hnot => hnot hblank
    -- The empty symbol is no blank that counts, so it is new.
    intro hsame
    have hin : .empty ∈ s := hsame ▸ mem_union.2 (Or.inl (mem_onlyEmpty.2 rfl))
    have hcounts := (((readsBlank_render_iff h hs).1 hblank).2.2 .empty hin).1
    cases hcounts
  · rw [if_neg hblank]
    exact iff_of_true rfl hblank

/-- **Which texts read back.**  A set that matches anything is written with a
character other than the dash and the backslash between its tokens.  Read by that
character, the text always gives a set; and it is the set that was written, unless
that has the empty symbol besides others and `ε` delimits, or has several symbols,
blanks that count and not the delimiter, and the delimiter is blank too. -/
theorem readWith_textWith_iff {s : SymbolSet} {d : Char} {text : String} (hs : s ≠ ∅)
    (hdash : d ≠ '-') (hbackslash : d ≠ '\\')
    (htext : s.textWith (String.singleton d) true = .ok text) :
    (∃ t, readWith (String.singleton d) text = .ok t)
      ∧ (readWith (String.singleton d) text = .ok s
        ↔ ¬ (d = 'ε' ∧ .empty ∈ s ∧ s.Several)
          ∧ ¬ (Text.isBlank d = true ∧ s.Several
            ∧ ∀ x ∈ s, isBlankSymbol x = true ∧ x ≠ .char d)) := by
  obtain ⟨hescapable, rfl⟩ := textWith_eq_ok_iff.1 htext
  rw [String.toList_singleton] at hescapable ⊢
  have h : Delimits [d] d := ⟨⟨[], rfl, nofun⟩, hescapable, hdash, hbackslash⟩
  rw [readWith_singleton]
  by_cases hepsilon : d = 'ε' ∧ .empty ∈ s
  · obtain ⟨rfl, hempty⟩ := hepsilon
    obtain ⟨hsome, hread⟩ := readBy_render_epsilon_iff hempty
    have hvisible : ¬ Text.isBlank 'ε' = true := by decide
    refine ⟨hsome, hread.trans ⟨fun hnot => ?_, fun hback hsev => ?_⟩⟩
    · exact ⟨fun hlost => hnot hlost.2.2, fun hblank => hvisible hblank.1⟩
    · exact hback.1 ⟨rfl, hempty, hsev⟩
  · obtain ⟨hsome, hread⟩ := readBy_render_iff h hs fun hd hempty => hepsilon ⟨hd, hempty⟩
    have hkept : ¬ (d = 'ε' ∧ .empty ∈ s ∧ s.Several) :=
      fun hlost => hepsilon ⟨hlost.1, hlost.2.1⟩
    rw [readsBlank_render_iff h hs] at hread
    exact ⟨hsome, hread.trans ⟨fun hnot => ⟨hkept, hnot⟩, And.right⟩⟩

/-- The empty symbol and two letters. -/
def letters : SymbolSet := ⟨.ofList [.empty, .char 'a', .char 'c'], by decide⟩

/-- A letter that delimits is escaped where it is a symbol. -/
theorem readWith_textWith_letters :
    letters.textWith "c" true = .ok "εcac\\c" ∧ readWith "c" "εcac\\c" = .ok letters := by
  have htext : letters.textWith (String.singleton 'c') true = .ok "εcac\\c" := by decide +kernel
  obtain ⟨_, hread⟩ := readWith_textWith_iff (by decide) (by decide) (by decide) htext
  exact ⟨htext, hread.2 ⟨fun h => absurd h.1 (by decide), fun h => absurd h.1 (by decide)⟩⟩

/-- A dash between two letters is read as that of a range. -/
theorem readWith_textWith_dash :
    letters.withoutEmpty ≠ ∅ ∧ letters.withoutEmpty.textWith "-" true = .ok "a-c"
      ∧ readWith "-" "a-c" ≠ .ok letters.withoutEmpty := by
  decide +kernel

/-- A backslash that delimits is passed over where it should escape. -/
example : readWith "\\" "\\n" = SymbolSet.ofTexts ["n"] := by decide +kernel

end FiniteAutomata.SymbolSet
