/-
  FiniteAutomata.Proofs.EmptySymbol
  ─────────────────────────────────
  **WHERE THE EMPTY SYMBOL COMES FROM.**

  Symbol text names the empty symbol by `ε` or `~`, and a text of blanks stands for
  it.  Blank, however, means more here than in the rest of symbol text: the
  separators U+001C to U+001F are blank and yet are symbols like any other, and a
  delimiter may be blank too.  So there are texts of ordinary symbols that gain the
  empty symbol:

      empty_not_mem_of_readLexemes   no lexeme stands for it without its signs
      readLexemes_of_no_dash         without a dash each lexeme is one symbol
      isSeparator_of_isBlank         the blanks that can be symbols

  Main statement: without a sign for it, the empty symbol is read iff the text is
  not of one character and consists of blanks that do not count, of separators and
  of delimiters that are blank (`reads_empty_iff`).
-/
import FiniteAutomata.Proofs.Delimiter

namespace FiniteAutomata.SymbolSet

/-! ## §1. Texts without a sign for the empty symbol. -/

theorem mem_of_raw_mem_lexemes {escapes : Bool} {c : Char} {text : List Char}
    (h : Lexeme.raw c ∈ lexemes escapes text) : c ∈ text := by
  induction text using lexemes.induct escapes with
  | case1 => exact absurd h List.not_mem_nil
  | case2 e => simpa [lexemes] using h
  | case3 b e text hescape ih =>
      rw [lexemes, if_pos hescape, List.mem_cons] at h
      obtain h | h := h
      · cases h
      · exact List.mem_cons_of_mem _ (List.mem_cons_of_mem _ (ih h))
  | case4 b e text hraw ih =>
      rw [lexemes, if_neg hraw, List.mem_cons] at h
      obtain h | h := h
      · injection h with h
        exact h ▸ List.mem_cons_self
      · exact List.mem_cons_of_mem _ (ih h)

theorem Lexeme.symbol_eq_empty {x : Lexeme} (h : x.symbol = .empty) :
    x = .raw '~' ∨ x = .raw 'ε' := by
  cases x with
  | escaped c => cases h
  | raw c =>
      by_cases hsign : c = '~' ∨ c = 'ε'
      · exact hsign.imp (congrArg Lexeme.raw) (congrArg Lexeme.raw)
      · rw [Lexeme.symbol, if_neg (by simpa using hsign)] at h
        split at h <;> cases h

/-- A range has characters only. -/
theorem empty_not_mem_expandRange {first last : Symbol} {symbols : List Symbol}
    (h : expandRange first last = .ok symbols) : .empty ∉ symbols := by
  unfold expandRange at h
  split at h
  · split at h
    · cases h
    · split at h
      · cases h
      · split at h
        · cases h
        · injection h with h
          subst h
          simp [charsBetween]
  · cases h

/-- Lexemes list the empty symbol only if one of them stands for it. -/
theorem empty_not_mem_of_readLexemes {d : Char} {l : List Lexeme} {symbols : List Symbol}
    (hl : ∀ x ∈ l, x.symbol ≠ .empty) (h : readLexemes d l = .ok symbols) :
    .empty ∉ symbols := by
  induction l using readLexemes.induct d generalizing symbols with
  | case1 =>
      injection h with h
      exact h ▸ List.not_mem_nil
  | case2 y rest ih =>
      rw [readLexemes_delimiter] at h
      exact ih (List.forall_mem_cons.1 hl).2 h
  | case3 x rest hx ih =>
      rw [readLexemes, if_neg hx, if_pos rfl, bind_eq_ok] at h
      obtain ⟨rest', hrest, h⟩ := h
      injection h with h
      rw [← h, List.mem_cons, not_or]
      obtain ⟨hxl, hl⟩ := List.forall_mem_cons.1 hl
      exact ⟨hxl.symm, ih hl hrest⟩
  | case4 x y rest hx hy ih =>
      rw [readLexemes, if_neg hx, if_neg hy, bind_eq_ok] at h
      obtain ⟨range, hrange, h⟩ := h
      rw [bind_eq_ok] at h
      obtain ⟨rest', hrest, h⟩ := h
      injection h with h
      rw [← h, List.mem_append, not_or]
      have hl' : ∀ z ∈ rest, z.symbol ≠ .empty := fun z hz => hl z (by simp [hz])
      exact ⟨empty_not_mem_expandRange hrange, ih hl' hrest⟩
  | case5 rest _ ih =>
      rw [readLexemes_delimiter] at h
      exact ih (List.forall_mem_cons.1 hl).2 h
  | case6 x rest hrest hx ih =>
      obtain ⟨hxl, hl⟩ := List.forall_mem_cons.1 hl
      rw [readLexemes_symbol hx fun y rest' heq => absurd heq (hrest y rest'), map_eq_pure_bind,
        bind_eq_ok] at h
      obtain ⟨rest', hrest, h⟩ := h
      injection h with h
      rw [← h, List.mem_cons, not_or]
      exact ⟨hxl.symm, ih hl hrest⟩

/-- A text with no sign for the empty symbol does not list it. -/
theorem empty_not_mem_of_text {d : Char} {text : List Char} {symbols : List Symbol}
    (htilde : '~' ∉ text) (hepsilon : 'ε' ∉ text)
    (h : readLexemes d (significantLexemes d text) = .ok symbols) : .empty ∉ symbols := by
  refine empty_not_mem_of_readLexemes (fun x hx hempty => ?_) h
  have hlexeme := (List.mem_filter.1 hx).1
  obtain rfl | rfl := Lexeme.symbol_eq_empty hempty
  · exact htilde (mem_of_raw_mem_lexemes hlexeme)
  · exact hepsilon (mem_of_raw_mem_lexemes hlexeme)

/-! ## §2. Blank texts. -/

/-- The separators of information: blanks that symbol text does not pass over. -/
def isSeparator (c : Char) : Bool := CharRange.contains ⟨0x1c, 0x1f⟩ c

/-- The blank characters of ASCII, compared one by one. -/
theorem isBlank_ascii {c : Char} (h : c.toNat < 0x80) :
    Text.isBlank c = (isGap c || isSeparator c) := by
  have hall : ∀ n < 0x80, Text.isBlank (Char.ofNat n)
      = (isGap (Char.ofNat n) || isSeparator (Char.ofNat n)) := by decide +kernel
  rw [← Char.ofNat_toNat c]
  exact hall c.toNat h

/-- A blank that can be a symbol, but is passed over where it is none, is a separator. -/
theorem isSeparator_of_isBlank {c : Char} (hblank : Text.isBlank c = true)
    (hgap : isGap c = false) (hallowed : Symbol.isAllowedChar c = true) :
    isSeparator c = true := by
  have hascii : c.toNat < 0x80 := by
    rw [Symbol.isAllowedChar, Bool.or_eq_true, decide_eq_true_iff] at hallowed
    obtain hascii | hblock := hallowed
    · exact hascii
    · obtain ⟨block, hblock⟩ := Option.isSome_iff_exists.1 hblock
      obtain ⟨hblock, hc⟩ := blockOf?_eq_some hblock
      rw [isBlank_eq_false_of_block hblock hc] at hblank
      cases hblank
  rw [isBlank_ascii hascii, hgap, Bool.false_or] at hblank
  exact hblank

theorem isAllowedChar_of_isSeparator {c : Char} (h : isSeparator c = true) :
    Symbol.isAllowedChar c = true := by
  rw [isSeparator, CharRange.contains_iff] at h
  rw [Symbol.isAllowedChar, Bool.or_eq_true, decide_eq_true_iff]
  exact Or.inl (Nat.lt_of_le_of_lt h.2 (by decide))

/-- Characters none of which is a backslash are lexemes one by one. -/
theorem lexemes_of_no_backslash (escapes : Bool) {text : List Char} (h : '\\' ∉ text) :
    lexemes escapes text = text.map .raw := by
  induction text with
  | nil => rfl
  | cons c text ih =>
      rw [List.mem_cons, not_or] at h
      rw [lexemes_cons (Ne.symm h.1), ih h.2, List.map_cons]

theorem significantLexemes_of_no_backslash (d : Char) {text : List Char} (h : '\\' ∉ text) :
    significantLexemes d text = (text.filter (!isGap ·)).map .raw := by
  rw [significantLexemes, lexemes_of_no_backslash _ h, List.filter_map]
  rfl

/-- Lexemes none of which is a dash are symbols one by one. -/
theorem readLexemes_of_no_dash (d : Char) {l : List Lexeme} (h : .raw '-' ∉ l) :
    readLexemes d l = .ok ((l.filter (· ≠ .raw d)).map Lexeme.symbol) := by
  induction l with
  | nil => rfl
  | cons x l ih =>
      rw [List.mem_cons, not_or] at h
      by_cases hx : x = .raw d
      · rw [hx, readLexemes_delimiter, ih h.2, List.filter_cons_of_neg (by simp)]
      · have hhead : l.head? ≠ some (.raw '-') := by
          intro hhead
          exact h.2 (List.mem_of_mem_head? hhead)
        rw [readLexemes_cons hx hhead, ih h.2, List.filter_cons_of_pos (by simpa using hx)]
        rfl

theorem ne_of_isBlank {c e : Char} (hc : Text.isBlank c = true) (he : Text.isBlank e = false) :
    c ≠ e := by
  rintro rfl
  rw [hc] at he
  cases he

theorem symbol_raw_of_isBlank {c : Char} (h : Text.isBlank c = true) :
    (Lexeme.raw c).symbol = .char c := by
  have htilde : c ≠ '~' := ne_of_isBlank h (by decide)
  have hepsilon : c ≠ 'ε' := ne_of_isBlank h (by decide)
  rw [Lexeme.symbol, if_neg (by simp [htilde, hepsilon]),
    if_neg (ne_of_isBlank h (by decide))]

/-- The symbols of a blank text are its characters that count and do not delimit. -/
theorem exists_symbols_of_blank (d : Char) {text : List Char}
    (hblank : Text.isBlankText text = true) :
    ∃ symbols, readLexemes d (significantLexemes d text) = .ok symbols
      ∧ ∀ x, x ∈ symbols ↔ ∃ c ∈ text, isGap c = false ∧ c ≠ d ∧ x = .char c := by
  have hall : ∀ c ∈ text, Text.isBlank c = true := List.all_eq_true.1 hblank
  have hvisible : ∀ c, Text.isBlank c = false → c ∉ text :=
    fun c hc hmem => ne_of_isBlank (hall c hmem) hc rfl
  have hlexemes := significantLexemes_of_no_backslash d (hvisible '\\' (by decide))
  have hdash : Lexeme.raw '-' ∉ significantLexemes d text := by
    rw [hlexemes]
    intro hdash
    obtain ⟨c, hc, hraw⟩ := List.mem_map.1 hdash
    injection hraw with hraw
    exact hvisible '-' (by decide) (hraw ▸ (List.mem_filter.1 hc).1)
  refine ⟨_, readLexemes_of_no_dash d hdash, fun x => ?_⟩
  rw [hlexemes]
  simp only [List.mem_map, List.mem_filter]
  constructor
  · rintro ⟨_, ⟨⟨c, ⟨hc, hgap⟩, rfl⟩, hd⟩, rfl⟩
    exact ⟨c, hc, by simpa using hgap, by simpa using hd, symbol_raw_of_isBlank (hall c hc)⟩
  · rintro ⟨c, hc, hgap, hd, rfl⟩
    exact ⟨.raw c, ⟨⟨c, ⟨hc, by simp [hgap]⟩, rfl⟩, by simpa using hd⟩,
      symbol_raw_of_isBlank (hall c hc)⟩

/-! ## §3. Texts that are read with the empty symbol. -/

/-- What a text may consist of so that it is blank and can be read: blanks that do not
count, separators, and the delimiter if that is blank. -/
def IsUnseen (d c : Char) : Prop :=
  isGap c = true ∨ isSeparator c = true ∨ c = d ∧ Text.isBlank d = true

theorem IsUnseen.isBlank {d c : Char} (h : IsUnseen d c) : Text.isBlank c = true := by
  obtain hgap | hseparator | ⟨rfl, hblank⟩ := h
  · exact isBlank_of_isGap hgap
  · have hrange := hseparator
    rw [isSeparator, CharRange.contains_iff] at hrange
    rw [isBlank_ascii (Nat.lt_of_le_of_lt hrange.2 (by decide)), hseparator, Bool.or_true]
  · exact hblank

section Text

variable {d : Char} {text : List Char} {symbols : List Symbol}

/-- A text of one character is that symbol, blank or not. -/
theorem length_ne_one_of_empty_mem (htilde : '~' ∉ text) (hepsilon : 'ε' ∉ text)
    (h : symbolsOfText d text = .ok symbols) (hempty : .empty ∈ symbols) :
    text.length ≠ 1 := by
  intro hlength
  obtain ⟨c, rfl⟩ := List.length_eq_one_iff.1 hlength
  injection h with h
  rw [← h, List.mem_singleton] at hempty
  obtain hsign | hsign := Lexeme.symbol_eq_empty hempty.symm
  · injection hsign with hsign
    exact htilde (hsign ▸ List.mem_cons_self)
  · injection hsign with hsign
    exact hepsilon (hsign ▸ List.mem_cons_self)

/-- A longer text has the empty symbol, without a sign for it, only if it is blank. -/
theorem isBlankText_of_empty_mem (htilde : '~' ∉ text) (hepsilon : 'ε' ∉ text)
    (hlength : 2 ≤ text.length) (h : symbolsOfText d text = .ok symbols)
    (hempty : .empty ∈ symbols) : Text.isBlankText text = true := by
  rw [symbolsOfText_of_two_le hlength, map_eq_pure_bind, bind_eq_ok] at h
  obtain ⟨listed, hlisted, h⟩ := h
  injection h with h
  by_contra hvisible
  rw [if_neg hvisible] at h
  exact empty_not_mem_of_text htilde hepsilon hlisted (h ▸ hempty)

/-- A blank text that can be read has nothing in it but what goes unseen. -/
theorem isUnseen_of_isBlankText (hlength : 2 ≤ text.length)
    (hblank : Text.isBlankText text = true) (h : symbolsOfText d text = .ok symbols)
    (hallowed : ∀ x ∈ symbols, x.isAllowed = true) : ∀ c ∈ text, IsUnseen d c := by
  intro c hc
  have hcblank : Text.isBlank c = true := List.all_eq_true.1 hblank c hc
  obtain ⟨listed, hlisted, hmem⟩ := exists_symbols_of_blank d hblank
  rw [symbolsOfText_of_two_le hlength, hlisted] at h
  injection h with h
  simp only [if_pos hblank] at h
  by_cases hgap : isGap c = true
  · exact Or.inl hgap
  · rw [Bool.not_eq_true] at hgap
    by_cases hd : c = d
    · exact Or.inr (Or.inr ⟨hd, hd ▸ hcblank⟩)
    · -- The character is read as a symbol, so it is allowed as one.
      have hin : .char c ∈ symbols := h ▸ List.mem_cons_of_mem _ ((hmem _).2 ⟨c, hc, hgap, hd, rfl⟩)
      exact Or.inr (Or.inl (isSeparator_of_isBlank hcblank hgap (hallowed _ hin)))

/-- A text of what goes unseen is read, and with the empty symbol. -/
theorem exists_symbols_of_isUnseen (hlength : text.length ≠ 1)
    (hunseen : ∀ c ∈ text, IsUnseen d c) :
    ∃ symbols, symbolsOfText d text = .ok symbols ∧ .empty ∈ symbols
      ∧ ∀ x ∈ symbols, x.isAllowed = true := by
  by_cases hnil : text = []
  · subst hnil
    exact ⟨[.empty], rfl, List.mem_cons_self, List.forall_mem_singleton.2 rfl⟩
  · have hblank : Text.isBlankText text = true :=
      List.all_eq_true.2 fun c hc => (hunseen c hc).isBlank
    have hpos := List.length_pos_of_ne_nil hnil
    obtain ⟨listed, hlisted, hmem⟩ := exists_symbols_of_blank d hblank
    refine ⟨.empty :: listed, ?_, List.mem_cons_self, List.forall_mem_cons.2 ⟨rfl, ?_⟩⟩
    · rw [symbolsOfText_of_two_le (by omega), hlisted]
      simp only [if_pos hblank]
      rfl
    · intro x hx
      obtain ⟨c, hc, hgap, hd, rfl⟩ := (hmem x).1 hx
      obtain hgap' | hseparator | ⟨hd', _⟩ := hunseen c hc
      · rw [hgap] at hgap'
        cases hgap'
      · exact isAllowedChar_of_isSeparator hseparator
      · exact absurd hd' hd

end Text

/-- **When the empty symbol comes from nowhere.**  A text with no sign for the empty
symbol is read with it iff the text is not of one character, and each of its
characters is a blank that does not count, a separator, or the delimiter, which then
is blank. -/
theorem reads_empty_iff {d : Char} {text : String} (htilde : '~' ∉ text.toList)
    (hepsilon : 'ε' ∉ text.toList) :
    (∃ s, readWith (String.singleton d) text = .ok s ∧ .empty ∈ s)
      ↔ text.toList.length ≠ 1 ∧ ∀ c ∈ text.toList,
          isGap c = true ∨ isSeparator c = true ∨ c = d ∧ Text.isBlank d = true := by
  simp only [readWith_singleton, readBy_eq_ok_iff]
  constructor
  · rintro ⟨s, ⟨symbols, hsymbols, hs⟩, hempty⟩
    have hempty' := (hs .empty).1 hempty
    have hlength := length_ne_one_of_empty_mem htilde hepsilon hsymbols hempty'
    refine ⟨hlength, fun c hc => ?_⟩
    have hpos := List.length_pos_of_mem hc
    have hblank := isBlankText_of_empty_mem htilde hepsilon (by omega) hsymbols hempty'
    exact isUnseen_of_isBlankText (by omega) hblank hsymbols
      (fun x hx => s.allowed x ((hs x).2 hx)) c hc
  · rintro ⟨hlength, hunseen⟩
    obtain ⟨symbols, hsymbols, hempty, hallowed⟩ := exists_symbols_of_isUnseen hlength hunseen
    refine ⟨⟨.ofList symbols, fun x hx => hallowed x (OrderedSet.mem_ofList.1 hx)⟩,
      ⟨symbols, hsymbols, fun x => OrderedSet.mem_ofList⟩, OrderedSet.mem_ofList.2 hempty⟩

/-- A separator and a space are read with the empty symbol, a separator and a letter
are not. -/
theorem reads_empty_iff_separators :
    ('~' ∉ "\x1c ".toList ∧ 'ε' ∉ "\x1c ".toList
        ∧ ∃ s, readWith "," "\x1c " = .ok s ∧ .empty ∈ s)
      ∧ '~' ∉ "\x1ca".toList ∧ 'ε' ∉ "\x1ca".toList
        ∧ ¬ ∃ s, readWith "," "\x1ca" = .ok s ∧ .empty ∈ s := by
  refine ⟨⟨by decide, by decide, ?_⟩, by decide, by decide, ?_⟩
  · refine (reads_empty_iff (d := ',') (by decide) (by decide)).2 ⟨by decide, ?_⟩
    exact List.forall_mem_cons.2 ⟨by decide, List.forall_mem_singleton.2 (by decide)⟩
  · intro hread
    obtain ⟨_, hunseen⟩ := (reads_empty_iff (d := ',') (by decide) (by decide)).1 hread
    exact absurd (hunseen 'a' (by decide)) (by decide)

/-- Two separators, which are symbols, gain the empty symbol. -/
theorem readWith_twoSeparators :
    '~' ∉ "\x1c\x1d".toList ∧ 'ε' ∉ "\x1c\x1d".toList
      ∧ (∃ c ∈ "\x1c\x1d".toList, isGap c = false)
      ∧ ∃ s, readWith "," "\x1c\x1d" = .ok s ∧ .empty ∈ s :=
  ⟨by decide, by decide, ⟨'\x1c', by decide, by decide⟩,
    ⟨.ofList [.empty, .char '\x1c', .char '\x1d'], by decide⟩, by decide +kernel⟩

end FiniteAutomata.SymbolSet
