/-
  FiniteAutomata.Proofs.SymbolText
  ────────────────────────────────
  **SYMBOL TEXT READS BACK.**

  The text of a set is a list of tokens with delimiters between them.  A token is
  the empty symbol, a character or a range; `Token.spelling` is what is written
  for it and `Token.symbols` what it stands for.  Three steps lead from the text
  back to the symbols:

      Token.exists_lexemes  a token is read as lexemes of its own, whatever follows
      exists_runTokens      a run is written as tokens that stand for its members
      symbolsOfText_spell   a text of tokens is read as the symbols of all of them

  All of this is for any `delimiter` between tokens that reads as one character
  (`Delimits`).  Main statement: the canonical text of a set that matches anything
  is read as the set (`read_text`), also where callers leave the empty symbol out
  (`readWith_textWith_canonical`).
-/
import FiniteAutomata.Proofs.Changes
import FiniteAutomata.SymbolSet.Printer
import Mathlib.Data.List.Nodup
import Mathlib.Data.List.SplitBy

namespace FiniteAutomata.SymbolSet

/-! ## §1. Lexemes of characters. -/

theorem lexemes_cons {c : Char} (hc : c ≠ '\\') (escapes : Bool) (rest : List Char) :
    lexemes escapes (c :: rest) = .raw c :: lexemes escapes rest := by
  cases rest with
  | nil => rfl
  | cons d rest => simp [lexemes, hc]

theorem lexemes_escape (c : Char) (rest : List Char) :
    lexemes true ('\\' :: c :: rest) = .escaped (unescape c) :: lexemes true rest := by
  simp [lexemes]

theorem unescape_of_not_unescapable {c : Char} (h : isUnescapable c = false) :
    unescape c = c := by
  simp only [isUnescapable, Bool.or_eq_false_iff, decide_eq_false_iff_not] at h
  unfold unescape
  split <;> simp_all

theorem isGap_eq_false {c : Char} (hspace : c ≠ ' ') (htab : c ≠ '\t') (hnewline : c ≠ '\n')
    (hreturn : c ≠ '\r') (hfeed : c ≠ '\x0c') (hvtab : c ≠ '\x0b') : isGap c = false := by
  simp only [isGap, hspace, htab, hnewline, hreturn, hfeed, hvtab, decide_false, Bool.or_self]

/-- The text of a character is a backslash form, or one character that is no blank
and has no other meaning. -/
theorem escapeChar_cases {reserved : List Char} (hres : reserved.any isUnescapable = false)
    {c : Char} (hc : c ≠ '␣') :
    (∃ e, escapeChar reserved c = ['\\', e] ∧ unescape e = c)
      ∨ ∃ r, escapeChar reserved c = [r] ∧ r ≠ '\\' ∧ r ≠ '-' ∧ r ∉ reserved
          ∧ isGap r = false ∧ (Lexeme.raw r).symbol = .char c := by
  have hmem : ∀ r ∈ reserved, isUnescapable r = false := by
    simpa using hres
  unfold escapeChar
  split
  case h_6 =>
    -- The space is written as a visible sign, which is read as the space.
    have hspace : '␣' ∉ reserved := fun h => absurd (hmem _ h) (by decide)
    exact Or.inr ⟨'␣', rfl, by decide, by decide, hspace, by decide, rfl⟩
  case h_12 hbackslash _ hdash htilde hepsilon hspace hnewline hreturn htab hfeed hvtab =>
    -- What is left has no form of its own: it is itself, escaped where reserved.
    by_cases hr : c ∈ reserved
    · rw [if_pos hr]
      exact Or.inl ⟨c, rfl, unescape_of_not_unescapable (hmem c hr)⟩
    · rw [if_neg hr]
      have hgap := isGap_eq_false hspace htab hnewline hreturn hfeed hvtab
      refine Or.inr ⟨c, rfl, hbackslash, hdash, hr, hgap, ?_⟩
      rw [Lexeme.symbol, if_neg (by simp; exact ⟨htilde, hepsilon⟩), if_neg (by simpa using hc)]
  all_goals exact Or.inl ⟨_, rfl, rfl⟩

/-- A lexeme that is nothing but a symbol where `d` delimits: it is no blank, no
delimiter and no dash. -/
structure Lexeme.Plain (d : Char) (x : Lexeme) : Prop where
  isGap_eq : x.isGap = false
  ne_delimiter : x ≠ .raw d
  ne_dash : x ≠ .raw '-'

theorem isBlank_of_isGap {c : Char} (h : isGap c = true) : Text.isBlank c = true := by
  simp only [isGap, Bool.or_eq_true, decide_eq_true_eq] at h
  rcases h with ((((rfl | rfl) | rfl) | rfl) | rfl) | rfl <;> decide

theorem ne_backslash_of_isGap {c : Char} (h : isGap c = true) : c ≠ '\\' := by
  rintro rfl
  exact absurd h (by decide)

/-- Blanks that are not escaped do not count. -/
theorem filter_lexemes_gaps {gaps : List Char} (h : ∀ g ∈ gaps, isGap g = true)
    (rest : List Char) : (lexemes true (gaps ++ rest)).filter (!·.isGap)
      = (lexemes true rest).filter (!·.isGap) := by
  induction gaps with
  | nil => rfl
  | cons g gaps ih =>
      have hg : isGap g = true := h g List.mem_cons_self
      rw [List.cons_append, lexemes_cons (ne_backslash_of_isGap hg),
        List.filter_cons_of_neg (by simp [Lexeme.isGap, hg])]
      exact ih fun g' hg' => h g' (List.mem_cons_of_mem g hg')

/-! ## §2. Delimiters. -/

/-- `Delimits delimiter d`: what is written between tokens is read as the delimiter
`d`.  It begins with `d`, what follows are blanks that do not count, and its
characters can be escaped where they are symbols.  A dash would begin a range, and
a backslash would no longer escape anything. -/
structure Delimits (delimiter : List Char) (d : Char) : Prop where
  exists_gaps : ∃ gaps, delimiter = d :: gaps ∧ ∀ g ∈ gaps, isGap g = true
  escapable : (reservedChars delimiter).any isUnescapable = false
  ne_dash : d ≠ '-'
  ne_backslash : d ≠ '\\'

theorem delimits_canonical : Delimits canonicalDelimiter ',' :=
  ⟨⟨[' '], rfl, List.forall_mem_singleton.2 (by decide)⟩, by decide, by decide, by decide⟩

namespace Delimits

variable {delimiter : List Char} {d : Char}

/-- A delimiter that counts is escaped where it is a symbol. -/
theorem mem_reservedChars (h : Delimits delimiter d) (hd : isGap d = false) :
    d ∈ reservedChars delimiter := by
  obtain ⟨gaps, rfl, _⟩ := h.exists_gaps
  exact List.mem_filter.2 ⟨List.mem_cons_self, by simp [hd]⟩

/-- The text of a character is read as one plain lexeme, whatever follows. -/
theorem exists_lexeme (h : Delimits delimiter d) {c : Char} (hc : c ≠ '␣') :
    ∃ x : Lexeme, x.Plain d ∧ x.symbol = .char c ∧ ∀ rest,
      lexemes true (escapeChar (reservedChars delimiter) c ++ rest) = x :: lexemes true rest := by
  obtain ⟨e, he, hunescape⟩ | ⟨r, hr, hbackslash, hdash, hreserved, hgap, hsymbol⟩ :=
    escapeChar_cases h.escapable hc
  · refine ⟨.escaped c, ⟨rfl, nofun, nofun⟩, rfl, ?_⟩
    intro rest
    rw [he, ← hunescape]
    exact lexemes_escape e rest
  · have hne : r ≠ d := by
      rintro rfl
      exact hreserved (h.mem_reservedChars hgap)
    refine ⟨.raw r, ⟨hgap, by simpa using hne, by simpa using hdash⟩, hsymbol, ?_⟩
    intro rest
    rw [hr]
    exact lexemes_cons hbackslash true rest

/-- Of a delimiter at most `d` counts, and only if it is no blank. -/
theorem filter_lexemes (h : Delimits delimiter d) (rest : List Char) :
    (lexemes true (delimiter ++ rest)).filter (!·.isGap)
      = [Lexeme.raw d].filter (!·.isGap) ++ (lexemes true rest).filter (!·.isGap) := by
  obtain ⟨gaps, rfl, hgaps⟩ := h.exists_gaps
  rw [List.cons_append, lexemes_cons h.ne_backslash, ← List.singleton_append, List.filter_append,
    filter_lexemes_gaps hgaps]

end Delimits

/-! ## §3. Reading lexemes. -/

/-- A lexeme stands for its symbol unless it delimits or begins a range. -/
theorem readLexemes_symbol {d : Char} {x : Lexeme} (hx : x ≠ .raw d) {rest : List Lexeme}
    (hrest : ∀ y rest', rest = .raw '-' :: y :: rest' → y = .raw d) :
    readLexemes d (x :: rest) = (x.symbol :: ·) <$> readLexemes d rest := by
  rw [readLexemes.eq_def d (x :: rest)]
  split
  · next heq => cases heq
  · next x' y rest' heq =>
    obtain ⟨rfl, rfl⟩ := List.cons.inj heq
    rw [if_neg hx, if_pos (hrest y rest' rfl)]
    rfl
  · next x' rest' _ heq =>
    obtain ⟨rfl, rfl⟩ := List.cons.inj heq
    rw [if_neg hx]
    rfl

theorem readLexemes_cons {d : Char} {x : Lexeme} (hx : x ≠ .raw d) {rest : List Lexeme}
    (hrest : rest.head? ≠ some (.raw '-')) :
    readLexemes d (x :: rest) = (x.symbol :: ·) <$> readLexemes d rest := by
  apply readLexemes_symbol hx
  intro y rest' h
  rw [h] at hrest
  exact absurd rfl hrest

/-- A delimiter is passed over, whatever follows. -/
theorem readLexemes_delimiter (d : Char) (rest : List Lexeme) :
    readLexemes d (.raw d :: rest) = readLexemes d rest := by
  rw [readLexemes.eq_def d (.raw d :: rest)]
  split
  · next heq => cases heq
  · next x y rest' heq =>
    obtain ⟨rfl, rfl⟩ := List.cons.inj heq
    rw [if_pos rfl]
  · next x rest' _ heq =>
    obtain ⟨rfl, rfl⟩ := List.cons.inj heq
    rw [if_pos rfl]

theorem readLexemes_range {d : Char} {x y : Lexeme} (hx : x ≠ .raw d) (hy : y ≠ .raw d)
    {symbols : List Symbol} (hrange : expandRange x.symbol y.symbol = .ok symbols)
    (rest : List Lexeme) :
    readLexemes d (x :: .raw '-' :: y :: rest) = (symbols ++ ·) <$> readLexemes d rest := by
  rw [readLexemes, if_neg hx, if_neg hy, hrange]
  rfl

/-! ## §4. Blocks. -/

theorem blockOf?_eq_some {c : Char} {block : CharRange} (h : Symbol.blockOf? c = some block) :
    block ∈ Symbol.blocks ∧ block.contains c = true := by
  unfold Symbol.blockOf? CharRange.find? at h
  exact ⟨List.mem_of_find?_eq_some h, List.find?_some (p := fun r => CharRange.contains r c) h⟩

/-- Blocks do not overlap. -/
theorem blockOf?_of_contains {block : CharRange} (hb : block ∈ Symbol.blocks) {c : Char}
    (hc : block.contains c = true) : Symbol.blockOf? c = some block := by
  -- There are few blocks, so all pairs are compared.
  have hapart : ∀ r ∈ Symbol.blocks, ∀ r' ∈ Symbol.blocks,
      r = r' ∨ r.last < r'.first ∨ r'.last < r.first := by decide
  cases hf : Symbol.blockOf? c with
  | none => exact absurd hc (List.find?_eq_none.1 hf block hb)
  | some block' =>
      obtain ⟨hb', hc'⟩ := blockOf?_eq_some hf
      rw [CharRange.contains_iff] at hc hc'
      obtain rfl | hlt | hlt := hapart block hb block' hb'
      · rfl
      · omega
      · omega

theorem expandRange_eq {block : CharRange} (hb : block ∈ Symbol.blocks) {first last : Char}
    (hfirst : block.contains first = true) (hlast : block.contains last = true)
    (hle : first.toNat ≤ last.toNat) :
    expandRange (.char first) (.char last) = .ok (charsBetween first last) := by
  unfold expandRange
  simp only [blockOf?_of_contains hb hfirst, hlast, Bool.not_true, Bool.false_eq_true, if_false]
  rw [if_neg (Nat.not_lt.2 hle)]

theorem ne_space_of_block {block : CharRange} (hb : block ∈ Symbol.blocks) {c : Char}
    (hc : block.contains c = true) : c ≠ '␣' := by
  have hbelow : ∀ r ∈ Symbol.blocks, r.contains '␣' = false := by decide
  intro h
  rw [h, hbelow block hb] at hc
  cases hc

/-! ## §5. Tokens. -/

/-- What is written between two delimiters. -/
inductive Token where
  | empty
  | char (c : Char)
  | range (first last : Char)

namespace Token

/-- The text of a token. -/
def spelling (reserved : List Char) : Token → List Char
  | .empty => ['ε']
  | .char c => escapeChar reserved c
  | .range first last => escapeChar reserved first ++ '-' :: escapeChar reserved last

/-- The symbols that a token stands for. -/
def symbols : Token → List Symbol
  | .empty => [.empty]
  | .char c => [.char c]
  | .range first last => charsBetween first last

/-- The space is written as `␣`, so `␣` itself cannot be written; and a range lies
in one block. -/
def Valid : Token → Prop
  | .empty => True
  | .char c => c ≠ '␣'
  | .range first last =>
      ∃ block ∈ Symbol.blocks, block.contains first = true ∧ block.contains last = true
        ∧ first.toNat ≤ last.toNat

/-- A token is read as lexemes of its own, whatever follows; and they are read as
its symbols, unless a dash follows.  The empty symbol must not be the delimiter. -/
theorem exists_lexemes {delimiter : List Char} {d : Char} (h : Delimits delimiter d)
    {t : Token} (ht : t.Valid) (hempty : d = 'ε' → t ≠ .empty) :
    ∃ x xs, (∀ rest, lexemes true (t.spelling (reservedChars delimiter) ++ rest)
          = x :: xs ++ lexemes true rest)
      ∧ (∀ y ∈ x :: xs, y.isGap = false) ∧ x ≠ .raw '-'
      ∧ ∀ rest, rest.head? ≠ some (.raw '-') →
          readLexemes d (x :: xs ++ rest) = (t.symbols ++ ·) <$> readLexemes d rest := by
  cases t with
  | empty =>
      have hne : 'ε' ≠ d := fun hd => hempty hd.symm rfl
      refine ⟨.raw 'ε', [], lexemes_cons (by decide) true,
        List.forall_mem_singleton.2 (by decide), nofun, ?_⟩
      intro rest hrest
      exact readLexemes_cons (by simpa using hne) hrest
  | char c =>
      obtain ⟨x, hplain, hsymbol, hlex⟩ := h.exists_lexeme ht
      refine ⟨x, [], hlex, List.forall_mem_singleton.2 hplain.isGap_eq, hplain.ne_dash, ?_⟩
      intro rest hrest
      show readLexemes d (x :: rest) = _
      rw [readLexemes_cons hplain.ne_delimiter hrest, hsymbol]
      rfl
  | range first last =>
      obtain ⟨block, hblock, hfirst, hlast, hle⟩ := ht
      have hrange := expandRange_eq hblock hfirst hlast hle
      obtain ⟨x, hx, hxsymbol, hxlex⟩ := h.exists_lexeme (ne_space_of_block hblock hfirst)
      obtain ⟨y, hy, hysymbol, hylex⟩ := h.exists_lexeme (ne_space_of_block hblock hlast)
      -- The dash between the two is the only one that is read as a dash.
      refine ⟨x, [.raw '-', y], ?_, ?_, hx.ne_dash, ?_⟩
      · intro rest
        rw [spelling, List.append_assoc, hxlex, List.cons_append,
          lexemes_cons (by decide), hylex]
        rfl
      · intro z hz
        obtain rfl | rfl | rfl : z = x ∨ z = .raw '-' ∨ z = y := by simpa using hz
        · exact hx.isGap_eq
        · rfl
        · exact hy.isGap_eq
      · intro rest _
        exact readLexemes_range hx.ne_delimiter hy.ne_delimiter (hxsymbol ▸ hysymbol ▸ hrange) rest

theorem symbols_ne_nil {t : Token} (ht : t.Valid) : t.symbols ≠ [] := by
  cases t with
  | empty => nofun
  | char c => nofun
  | range first last =>
      obtain ⟨_, _, _, _, hle⟩ := ht
      intro h
      have hlength := congrArg List.length h
      simp only [symbols, charsBetween, List.length_map, List.length_range', List.length_nil]
        at hlength
      omega

end Token

/-! ## §6. Texts of tokens. -/

/-- The text of tokens with a delimiter between them. -/
def spell (delimiter : List Char) (ts : List Token) : List Char :=
  delimiter.intercalate (ts.map (Token.spelling (reservedChars delimiter)))

section Spell

variable {delimiter : List Char} {d : Char}

theorem spell_singleton (t : Token) :
    spell delimiter [t] = t.spelling (reservedChars delimiter) :=
  List.intercalate_singleton

theorem spell_cons_cons (t t' : Token) (ts : List Token) :
    spell delimiter (t :: t' :: ts)
      = t.spelling (reservedChars delimiter) ++ (delimiter ++ spell delimiter (t' :: ts)) := by
  unfold spell
  rw [List.map_cons, List.map_cons, List.intercalate_cons_cons, ← List.map_cons, List.append_assoc]

theorem significantLexemes_eq (hd : d ≠ '\\') (text : List Char) :
    significantLexemes d text = (lexemes true text).filter (!·.isGap) := by
  simp [significantLexemes, hd]

/-- A delimiter between tokens is passed over. -/
theorem readLexemes_filter_delimiter (rest : List Lexeme) :
    readLexemes d ([Lexeme.raw d].filter (!·.isGap) ++ rest) = readLexemes d rest := by
  by_cases hgap : (Lexeme.raw d).isGap = true
  · rw [List.filter_cons_of_neg (by simp [hgap])]
    rfl
  · rw [List.filter_cons_of_pos (by simp [hgap])]
    exact readLexemes_delimiter d rest

theorem head?_filter_delimiter (hd : d ≠ '-') {rest : List Lexeme}
    (hrest : rest.head? ≠ some (.raw '-')) :
    ([Lexeme.raw d].filter (!·.isGap) ++ rest).head? ≠ some (.raw '-') := by
  by_cases hgap : (Lexeme.raw d).isGap = true
  · rw [List.filter_cons_of_neg (by simp [hgap])]
    exact hrest
  · rw [List.filter_cons_of_pos (by simp [hgap])]
    simpa using hd

/-- A text of tokens is read as the symbols that they stand for. -/
theorem readLexemes_spell (h : Delimits delimiter d) {ts : List Token}
    (hts : ∀ t ∈ ts, t.Valid) (hempty : d = 'ε' → .empty ∉ ts) :
    readLexemes d (significantLexemes d (spell delimiter ts)) = .ok (ts.flatMap Token.symbols)
      ∧ (significantLexemes d (spell delimiter ts)).head? ≠ some (.raw '-') := by
  simp only [significantLexemes_eq h.ne_backslash]
  induction ts with
  | nil => exact ⟨rfl, nofun⟩
  | cons t ts ih =>
      obtain ⟨x, xs, hlex, hgap, hdash, hread⟩ :=
        Token.exists_lexemes h (hts t List.mem_cons_self)
          fun hd ht => hempty hd (ht ▸ List.mem_cons_self)
      -- No lexeme of a token is passed over.
      have hkeep : (x :: xs).filter (!·.isGap) = x :: xs := by
        rw [List.filter_eq_self]
        intro y hy
        rw [hgap y hy]
        rfl
      have hhead : ∀ rest, (x :: xs ++ rest).head? ≠ some (.raw '-') := by
        intro rest h
        injection h with h
        exact hdash h
      cases ts with
      | nil =>
          have hspell : (lexemes true (spell delimiter [t])).filter (!·.isGap) = x :: xs ++ [] := by
            rw [spell_singleton, ← List.append_nil (t.spelling _), hlex, List.filter_append, hkeep]
            rfl
          rw [hspell, hread [] nofun]
          exact ⟨rfl, hhead []⟩
      | cons t' ts =>
          obtain ⟨hrest, hrestHead⟩ := ih (fun u hu => hts u (List.mem_cons_of_mem t hu))
            fun hd hu => hempty hd (List.mem_cons_of_mem t hu)
          rw [spell_cons_cons, hlex, List.filter_append, hkeep, h.filter_lexemes,
            hread _ (head?_filter_delimiter h.ne_dash hrestHead),
            readLexemes_filter_delimiter, hrest]
          exact ⟨rfl, hhead _⟩

theorem readLexemes_singleton {c : Char} {symbols : List Symbol} (hsome : symbols ≠ [])
    (h : readLexemes d (([Lexeme.raw c] : List Lexeme).filter (!·.isGap)) = .ok symbols) :
    symbols = [(Lexeme.raw c).symbol] := by
  by_cases hgap : (Lexeme.raw c).isGap = true
  · rw [List.filter_cons_of_neg (by simp [hgap])] at h
    injection h with h
    exact absurd h.symm hsome
  · rw [List.filter_cons_of_pos (by simp [hgap]), List.filter_nil] at h
    by_cases hd : Lexeme.raw c = .raw d
    · rw [hd, readLexemes_delimiter] at h
      injection h with h
      exact absurd h.symm hsome
    · rw [readLexemes_cons hd (by simp)] at h
      injection h with h
      exact h.symm

/-- A text of several characters is read lexeme by lexeme. -/
theorem symbolsOfText_of_two_le {text : List Char} (hlength : 2 ≤ text.length) :
    symbolsOfText d text
      = (fun symbols => if Text.isBlankText text then .empty :: symbols else symbols)
        <$> readLexemes d (significantLexemes d text) := by
  match text with
  | [] => simp at hlength
  | [c] => simp at hlength
  | c :: c' :: rest =>
      rw [symbolsOfText]
      · rfl
      · nofun
      · nofun

/-- A text of several characters all of which are blank.  Reading takes it for the
empty symbol, whatever else is in it. -/
def readsBlank (text : List Char) : Bool :=
  text.length ≠ 1 && Text.isBlankText text

/-- A text that lists symbols is read as these, also if it has one character only;
a blank one has the empty symbol besides. -/
theorem symbolsOfText_eq {text : List Char} {symbols : List Symbol} (hsome : symbols ≠ [])
    (hread : readLexemes d (significantLexemes d text) = .ok symbols) :
    symbolsOfText d text
      = .ok (if readsBlank text then .empty :: symbols else symbols) := by
  -- A text of one character is read apart, before any blank is looked for.
  match text with
  | [] =>
      injection hread with hread
      exact absurd hread.symm hsome
  | [c] =>
      rw [readLexemes_singleton hsome hread]
      rfl
  | c :: c' :: rest =>
      have hblank : readsBlank (c :: c' :: rest) = Text.isBlankText (c :: c' :: rest) := by
        simp [readsBlank]
      rw [symbolsOfText_of_two_le (by simp), hread, hblank]
      rfl

/-- **A text of tokens** is read as the symbols that they stand for; if it is blank,
with the empty symbol besides. -/
theorem symbolsOfText_spell (h : Delimits delimiter d) {ts : List Token}
    (hsome : ts ≠ []) (hts : ∀ t ∈ ts, t.Valid) (hempty : d = 'ε' → .empty ∉ ts) :
    symbolsOfText d (spell delimiter ts)
      = .ok (if readsBlank (spell delimiter ts) then .empty :: ts.flatMap Token.symbols
          else ts.flatMap Token.symbols) := by
  refine symbolsOfText_eq ?_ (readLexemes_spell h hts hempty).1
  obtain ⟨t, ht⟩ := List.exists_mem_of_ne_nil ts hsome
  intro hnil
  exact Token.symbols_ne_nil (hts t ht) (List.flatMap_eq_nil_iff.1 hnil t ht)

end Spell

/-- A token of more than one character is not blank. -/
theorem Token.exists_visible {reserved : List Char} (hres : reserved.any isUnescapable = false)
    {t : Token} (ht : t.Valid) (hlength : (t.spelling reserved).length ≠ 1) :
    ∃ c ∈ t.spelling reserved, Text.isBlank c = false := by
  cases t with
  | empty => exact absurd rfl hlength
  | char c =>
      obtain ⟨e, he, _⟩ | ⟨r, hr, _⟩ := escapeChar_cases hres ht
      · have hmem : '\\' ∈ spelling reserved (.char c) := by simp [spelling, he]
        exact ⟨'\\', hmem, by decide⟩
      · exact absurd (congrArg List.length hr) hlength
  | range first last => exact ⟨'-', by simp [spelling], by decide⟩

/-- With a comma between tokens no text reads blank. -/
theorem readsBlank_spell_canonical {ts : List Token} (hsome : ts ≠ [])
    (hts : ∀ t ∈ ts, t.Valid) : readsBlank (spell canonicalDelimiter ts) = false := by
  have hvisible : (spell canonicalDelimiter ts).length ≠ 1 →
      ∃ c ∈ spell canonicalDelimiter ts, Text.isBlank c = false := by
    intro hlength
    match ts with
    | [] => exact absurd rfl hsome
    | [t] =>
        rw [spell_singleton] at hlength ⊢
        exact t.exists_visible (by decide) (hts t List.mem_cons_self) hlength
    | t :: t' :: ts =>
        rw [spell_cons_cons]
        exact ⟨',', by simp [canonicalDelimiter], by decide⟩
  rw [readsBlank, Bool.and_eq_false_imp]
  intro hlength
  obtain ⟨c, hc, hblank⟩ := hvisible (by simpa using hlength)
  exact List.all_eq_false.2 ⟨c, hc, by simp [hblank]⟩

/-! ## §7. Runs. -/

theorem charsBetween_self (c : Char) : charsBetween c c = [.char c] := by
  simp [charsBetween, Char.ofNat_toNat]

theorem charsBetween_cons {a c b : Char} (hc : c.toNat = a.toNat + 1) (hb : c.toNat ≤ b.toNat) :
    charsBetween a b = .char a :: charsBetween c b := by
  unfold charsBetween
  have hlength : b.toNat + 1 - a.toNat = (b.toNat + 1 - c.toNat) + 1 := by omega
  rw [hlength, List.range'_succ, List.map_cons, Char.ofNat_toNat, hc]

theorem follows_iff {c d : Char} : follows c d = true ↔
    d.toNat = c.toNat + 1
      ∧ ∃ block ∈ Symbol.blocks, block.contains c = true ∧ block.contains d = true := by
  unfold follows
  rw [Bool.and_eq_true, decide_eq_true_iff]
  apply and_congr_right
  intro _
  constructor
  · intro h
    cases hb : Symbol.blockOf? c with
    | none => simp [hb] at h
    | some block =>
        obtain ⟨hblock, hc⟩ := blockOf?_eq_some hb
        exact ⟨block, hblock, hc, by simpa [hb] using h⟩
  · intro h
    obtain ⟨block, hblock, hc, hd⟩ := h
    rw [blockOf?_of_contains hblock hc]
    exact hd

/-- A run has the characters from its first to its last, and if it has several,
these lie in one block. -/
theorem exists_last_of_run {a : Char} {l : List Char}
    (h : (a :: l).IsChain fun c d => follows c d = true) :
    ∃ b, (a :: l).getLast? = some b ∧ a.toNat ≤ b.toNat
      ∧ (a :: l).map Symbol.char = charsBetween a b
      ∧ (l ≠ [] → ∃ block ∈ Symbol.blocks,
          block.contains a = true ∧ block.contains b = true) := by
  induction l generalizing a with
  | nil => exact ⟨a, rfl, Nat.le_refl _, (charsBetween_self a).symm, fun hl => absurd rfl hl⟩
  | cons c l ih =>
      rw [List.isChain_cons_cons] at h
      obtain ⟨hnext, block, hblock, ha, hc⟩ := follows_iff.1 h.1
      obtain ⟨b, hb, hle, hmap, hin⟩ := ih h.2
      refine ⟨b, ?_, by omega, ?_, fun _ => ⟨block, hblock, ha, ?_⟩⟩
      · rw [List.getLast?_cons_cons, hb]
      · rw [charsBetween_cons hnext hle, List.map_cons, hmap]
      · by_cases hl : l = []
        · subst hl
          injection hb with hb
          exact hb ▸ hc
        · -- Both blocks are the block of `c`.
          obtain ⟨block', hblock', hc', hb'⟩ := hin hl
          have hsame : some block = some block' :=
            (blockOf?_of_contains hblock hc).symm.trans (blockOf?_of_contains hblock' hc')
          injection hsame with hsame
          exact hsame ▸ hb'

/-- What a run is written as: its members, or its range if it has several. -/
theorem runTokens_cases (delimiter run : List Char) :
    runTokens delimiter run = run.map (escapeChar (reservedChars delimiter))
      ∨ ∃ a l b, run = a :: l ∧ l ≠ [] ∧ run.getLast? = some b
          ∧ runTokens delimiter run
            = [(Token.range a b).spelling (reservedChars delimiter)] := by
  match run with
  | [] => exact Or.inl rfl
  | [a] => exact Or.inl rfl
  | [a, b] => exact Or.inl rfl
  | a :: b :: c :: l =>
      obtain ⟨d, hd⟩ : ∃ d, (a :: b :: c :: l).getLast? = some d :=
        ⟨_, List.getLast?_eq_some_getLast (List.cons_ne_nil _ _)⟩
      have hlast : ((a :: b :: c :: l).map (escapeChar (reservedChars delimiter))).getLast?
          = some (escapeChar (reservedChars delimiter) d) := by
        rw [List.getLast?_map, hd]
        rfl
      simp only [runTokens, List.map_cons] at hlast ⊢
      rw [hlast, Option.getD_some]
      split
      · exact Or.inr ⟨a, b :: c :: l, d, rfl, nofun, hd, rfl⟩
      · exact Or.inl rfl

/-- A run is written as tokens that stand for its members. -/
theorem exists_runTokens (delimiter : List Char) {run : List Char}
    (hrun : run.IsChain fun c d => follows c d = true) (hspace : '␣' ∉ run) :
    ∃ ts : List Token, (∀ t ∈ ts, t.Valid)
      ∧ runTokens delimiter run = ts.map (Token.spelling (reservedChars delimiter))
      ∧ ts.flatMap Token.symbols = run.map Symbol.char := by
  obtain hmembers | ⟨a, l, b, hal, hl, hlast, hrange⟩ := runTokens_cases delimiter run
  · refine ⟨run.map Token.char, ?_, ?_, ?_⟩
    · intro t ht
      obtain ⟨c, hc, rfl⟩ := List.mem_map.1 ht
      exact fun h => hspace (h ▸ hc)
    · rw [hmembers, List.map_map]
      rfl
    · rw [List.flatMap_map, List.map_eq_flatMap]
      rfl
  · subst hal
    obtain ⟨b', hb', hle, hmap, hin⟩ := exists_last_of_run hrun
    obtain rfl : b = b' := Option.some_inj.1 (hlast.symm.trans hb')
    obtain ⟨block, hblock, ha, hb⟩ := hin hl
    refine ⟨[.range a b], ?_, hrange, ?_⟩
    · intro t ht
      rw [List.mem_singleton.1 ht]
      exact ⟨block, hblock, ha, hb, hle⟩
    · rw [hmap]
      exact List.append_nil _

theorem exists_tokens_of_runs (delimiter : List Char) {runs : List (List Char)}
    (hruns : ∀ run ∈ runs, run.IsChain fun c d => follows c d = true)
    (hspace : '␣' ∉ runs.flatten) :
    ∃ ts : List Token, (∀ t ∈ ts, t.Valid)
      ∧ runs.flatMap (runTokens delimiter)
        = ts.map (Token.spelling (reservedChars delimiter))
      ∧ ts.flatMap Token.symbols = runs.flatten.map Symbol.char := by
  induction runs with
  | nil => exact ⟨[], nofun, rfl, rfl⟩
  | cons run runs ih =>
      rw [List.flatten_cons, List.mem_append, not_or] at hspace
      obtain ⟨ts, hts, htokens, hsymbols⟩ :=
        exists_runTokens delimiter (hruns run List.mem_cons_self) hspace.1
      obtain ⟨us, hus, hutokens, husymbols⟩ :=
        ih (fun r hr => hruns r (List.mem_cons_of_mem run hr)) hspace.2
      refine ⟨ts ++ us, ?_, ?_, ?_⟩
      · intro t ht
        exact (List.mem_append.1 ht).elim (hts t) (hus t)
      · rw [List.flatMap_cons, htokens, hutokens, List.map_append]
      · rw [List.flatMap_append, hsymbols, husymbols, List.flatten_cons, List.map_append]

/-! ## §8. Sets. -/

theorem mem_chars {s : SymbolSet} {c : Char} : c ∈ s.chars ↔ .char c ∈ s := by
  unfold chars
  rw [List.mem_filterMap]
  constructor
  · intro h
    obtain ⟨x, hx, hc⟩ := h
    cases x with
    | empty => cases hc
    | char c' =>
        injection hc with hc
        exact hc ▸ hx
  · intro h
    exact ⟨.char c, h, rfl⟩

theorem nodup_chars (s : SymbolSet) : s.chars.Nodup := by
  refine List.Nodup.filterMap ?_ s.symbols.nodup
  intro x y c hx hy
  cases x <;> cases y <;> simp_all

/-- A set is written as tokens that stand for its members, each for itself. -/
theorem exists_tokens (delimiter : List Char) (includeEmpty : Bool) (s : SymbolSet) :
    ∃ ts : List Token, (∀ t ∈ ts, t.Valid)
      ∧ tokens delimiter includeEmpty s
        = ts.map (Token.spelling (reservedChars delimiter))
      ∧ (ts.flatMap Token.symbols).Nodup
      ∧ ∀ x, x ∈ ts.flatMap Token.symbols ↔ x ∈ s ∧ (includeEmpty = true ∨ x ≠ .empty) := by
  -- The runs together are the characters of the set, none of which is `␣`.
  have hspace : '␣' ∉ (s.chars.splitBy follows).flatten := by
    rw [List.flatten_splitBy, mem_chars]
    intro h
    exact absurd (s.allowed _ h) (by decide)
  obtain ⟨ts, hts, htokens, hsymbols⟩ := exists_tokens_of_runs delimiter
    (fun run hrun => List.isChain_of_mem_splitBy hrun) hspace
  rw [List.flatten_splitBy] at hsymbols
  have hchars : ∀ x, x ∈ s.chars.map Symbol.char ↔ x ∈ s ∧ x ≠ .empty := by
    intro x
    cases x with
    | empty => simp
    | char c => simp [mem_chars]
  have hnodup : (s.chars.map Symbol.char).Nodup :=
    List.Nodup.map (fun _ _ h => Symbol.char.inj h) s.nodup_chars
  -- The empty symbol comes first, and only if it is asked for.
  by_cases hempty : (includeEmpty && s.hasEmpty) = true
  · refine ⟨.empty :: ts, ?_, ?_, ?_, ?_⟩
    · intro t ht
      obtain rfl | ht := List.mem_cons.1 ht
      · trivial
      · exact hts t ht
    · rw [tokens, if_pos hempty, htokens]
      rfl
    · rw [List.flatMap_cons, hsymbols]
      exact List.nodup_cons.2 ⟨fun h => ((hchars _).1 h).2 rfl, hnodup⟩
    · intro x
      rw [Bool.and_eq_true, hasEmpty, has_iff] at hempty
      rw [List.flatMap_cons, hsymbols, List.mem_append, hchars]
      by_cases hx : x = .empty <;> simp [Token.symbols, hx, hempty]
  · refine ⟨ts, hts, ?_, hsymbols ▸ hnodup, ?_⟩
    · rw [tokens, if_neg hempty, htokens]
      rfl
    · intro x
      rw [Bool.and_eq_true, hasEmpty, has_iff] at hempty
      rw [hsymbols, hchars]
      by_cases hx : x = .empty
      · subst hx
        simp only [ne_eq, not_true_eq_false, and_false, or_false, false_iff]
        exact fun h => hempty h.symm
      · simp [hx]

theorem ofSymbols_symbols (s : SymbolSet) : ofSymbols s.symbols = .ok s := by
  unfold ofSymbols
  split
  · rename_i c hc
    obtain ⟨x, hx, hfound⟩ := List.exists_of_findSome?_eq_some hc
    have hallowed := s.allowed x hx
    cases x with
    | empty => cases hfound
    | char c' =>
        rw [Symbol.isAllowed] at hallowed
        simp [hallowed] at hfound
  · rfl

theorem ofSymbols_ofList {s : SymbolSet} {symbols : List Symbol}
    (h : ∀ x, x ∈ symbols ↔ x ∈ s) : ofSymbols (OrderedSet.ofList symbols) = .ok s := by
  have hs : OrderedSet.ofList symbols = s.symbols := by
    ext x
    rw [OrderedSet.mem_ofList, h]
    rfl
  rw [hs, ofSymbols_symbols]

theorem ofSymbols_eq_ok_iff {symbols : OrderedSet Symbol} {s : SymbolSet} :
    ofSymbols symbols = .ok s ↔ s.symbols = symbols := by
  constructor
  · intro h
    unfold ofSymbols at h
    split at h
    · cases h
    · injection h with h
      exact h ▸ rfl
  · rintro rfl
    exact ofSymbols_symbols s

/-- A text is read as the set of the symbols that it lists. -/
theorem readBy_eq_ok_iff {d : Char} {text : String} {s : SymbolSet} :
    readBy d text = .ok s
      ↔ ∃ symbols, symbolsOfText d text.toList = .ok symbols ∧ ∀ x, x ∈ s ↔ x ∈ symbols := by
  unfold readBy
  rw [bind_eq_ok]
  refine exists_congr fun symbols => and_congr_right fun _ => ?_
  rw [ofSymbols_eq_ok_iff]
  constructor
  · intro h x
    rw [← OrderedSet.mem_ofList, ← h]
    rfl
  · intro h
    refine OrderedSet.ext fun x => ?_
    rw [OrderedSet.mem_ofList]
    exact h x

/-- The text of a set is a text of tokens that stand for its members, each for
itself. -/
theorem exists_spell (delimiter : List Char) (includeEmpty : Bool) (s : SymbolSet) :
    ∃ ts : List Token, (∀ t ∈ ts, t.Valid)
      ∧ (s.render delimiter includeEmpty).toList = spell delimiter ts
      ∧ (ts.flatMap Token.symbols).Nodup
      ∧ ∀ x, x ∈ ts.flatMap Token.symbols ↔ x ∈ s ∧ (includeEmpty = true ∨ x ≠ .empty) := by
  obtain ⟨ts, hts, htokens, hrest⟩ := exists_tokens delimiter includeEmpty s
  refine ⟨ts, hts, ?_, hrest⟩
  rw [render, String.toList_ofList, htokens]
  rfl

/-- Tokens that stand for the members of a set stand for something if it matches
anything. -/
theorem flatMap_symbols_ne_nil {s : SymbolSet} (hs : s ≠ ∅) {ts : List Token}
    (h : ∀ x, x ∈ ts.flatMap Token.symbols ↔ x ∈ s) : ts.flatMap Token.symbols ≠ [] := by
  obtain ⟨x, hx⟩ := exists_mem hs
  exact List.ne_nil_of_mem ((h x).2 hx)

theorem tokens_ne_nil {s : SymbolSet} (hs : s ≠ ∅) {ts : List Token}
    (h : ∀ x, x ∈ ts.flatMap Token.symbols ↔ x ∈ s) : ts ≠ [] := by
  rintro rfl
  exact flatMap_symbols_ne_nil hs h rfl

/-- **The text of a set is read as the set** by the delimiter that it is written
with, without the empty symbol if that is left out, as long as anything is written;
if the text is blank, the empty symbol is read besides. -/
theorem readBy_render {delimiter : List Char} {d : Char} (h : Delimits delimiter d)
    {s t : SymbolSet} {includeEmpty : Bool}
    (ht : ∀ x, x ∈ t ↔ x ∈ s ∧ (includeEmpty = true ∨ x ≠ .empty)) (hsome : t ≠ ∅)
    (hempty : d = 'ε' → .empty ∉ t) :
    readBy d (s.render delimiter includeEmpty)
      = .ok (if readsBlank (s.render delimiter includeEmpty).toList then onlyEmpty ∪ t else t) := by
  obtain ⟨ts, hts, htext, _, hsymbols⟩ := exists_spell delimiter includeEmpty s
  have hmem : ∀ x, x ∈ ts.flatMap Token.symbols ↔ x ∈ t :=
    fun x => (hsymbols x).trans (ht x).symm
  have hemptyTokens : d = 'ε' → .empty ∉ ts := by
    intro hd hin
    exact hempty hd ((hmem .empty).1 (List.mem_flatMap.2 ⟨.empty, hin, List.mem_singleton.2 rfl⟩))
  unfold readBy
  rw [htext, symbolsOfText_spell h (tokens_ne_nil hsome hmem) hts hemptyTokens]
  by_cases hblank : readsBlank (spell delimiter ts) = true
  · rw [if_pos hblank, if_pos hblank]
    apply ofSymbols_ofList
    intro x
    rw [List.mem_cons, hmem, mem_union, mem_onlyEmpty]
  · rw [if_neg hblank, if_neg hblank]
    exact ofSymbols_ofList hmem

/-- The canonical text of a set is read as the set, without the empty symbol if that
is left out, as long as anything is written. -/
theorem read_render {s t : SymbolSet} {includeEmpty : Bool}
    (ht : ∀ x, x ∈ t ↔ x ∈ s ∧ (includeEmpty = true ∨ x ≠ .empty)) (hsome : t ≠ ∅) :
    read (s.render canonicalDelimiter includeEmpty) = .ok t := by
  have hblank : readsBlank (s.render canonicalDelimiter includeEmpty).toList = false := by
    obtain ⟨ts, hts, htext, _, hsymbols⟩ := exists_spell canonicalDelimiter includeEmpty s
    have hsomeTokens : ts ≠ [] :=
      tokens_ne_nil hsome fun x => (hsymbols x).trans (ht x).symm
    rw [htext]
    exact readsBlank_spell_canonical hsomeTokens hts
  unfold read
  rw [readBy_render delimits_canonical ht hsome (fun h => absurd h (by decide)), hblank]
  rfl

/-- The canonical text of a set that matches anything is read as the set. -/
theorem read_text {s : SymbolSet} (hs : s ≠ ∅) : read s.text = .ok s :=
  read_render (by simp) hs

/-- The text of the set that matches nothing is read as the empty symbol. -/
theorem read_text_empty : read (∅ : SymbolSet).text = .ok onlyEmpty := by
  decide

/-- Without the empty symbol any set is read back, the one that matches nothing too. -/
theorem withoutEmpty_of_read_text {s t : SymbolSet} (hs : Symbol.empty ∉ s)
    (hread : read s.text = .ok t) : t.withoutEmpty = s := by
  by_cases hnone : s = ∅
  · -- Nothing is written, which is read as the empty symbol, which is dropped.
    subst hnone
    rw [read_text_empty] at hread
    injection hread with hread
    rw [← hread]
    decide
  · rw [read_text hnone] at hread
    injection hread with hread
    subst hread
    refine ext fun x => ?_
    rw [mem_withoutEmpty, and_iff_left_of_imp]
    exact fun hx e => hs (e ▸ hx)

/-! ## §9. Canonical text by the operations of callers. -/

theorem textWith_eq_ok_iff {delimiter text : String} {includeEmpty : Bool} {s : SymbolSet} :
    s.textWith delimiter includeEmpty = .ok text
      ↔ (reservedChars delimiter.toList).any isUnescapable = false
        ∧ text = s.render delimiter.toList includeEmpty := by
  unfold textWith
  by_cases h : (reservedChars delimiter.toList).any isUnescapable = true
  · simp [h]
  · rw [if_neg h, Except.ok.injEq, Bool.not_eq_true] at *
    exact ⟨fun e => ⟨h, e.symm⟩, fun e => e.2.symm⟩

theorem readWith_singleton (d : Char) (text : String) :
    readWith (String.singleton d) text = readBy d text := by
  unfold readWith
  rw [String.toList_singleton]

/-- **Canonical text is read back.**  The text of a set that matches anything is
written with a comma and a blank between tokens, and read by the comma it gives the
set; written without the empty symbol, it gives the set without that, as long as a
character is left. -/
theorem readWith_textWith_canonical (s : SymbolSet) :
    (s ≠ ∅ → ∃ text, s.textWith ", " true = .ok text ∧ readWith "," text = .ok s)
      ∧ ((∃ c, Symbol.char c ∈ s) →
          ∃ text, s.textWith ", " false = .ok text ∧ readWith "," text = .ok s.withoutEmpty) := by
  have hwritten : ∀ includeEmpty, s.textWith ", " includeEmpty
      = .ok (s.render canonicalDelimiter includeEmpty) :=
    fun includeEmpty => textWith_eq_ok_iff.2 ⟨by decide, rfl⟩
  constructor
  · intro hs
    exact ⟨_, hwritten true, (readWith_singleton ',' _).trans (read_text hs)⟩
  · intro hchar
    obtain ⟨c, hc⟩ := hchar
    have hsome : s.withoutEmpty ≠ ∅ :=
      ne_nothing_of_mem (mem_withoutEmpty.2 ⟨hc, nofun⟩)
    exact ⟨_, hwritten false, (readWith_singleton ',' _).trans (read_render (by simp) hsome)⟩

/-- A set whose text has the empty symbol, the space, an escaped dash, and a range
with an escaped end. -/
def mixed : SymbolSet where
  symbols := .ofList
    [.empty, .char ' ', .char '-', .char 'β', .char 'γ', .char 'δ', .char 'ε']
  allowed := by decide

theorem readWith_textWith_mixed :
    mixed.textWith ", " true = .ok "ε, ␣, \\-, β-\\ε"
      ∧ readWith "," "ε, ␣, \\-, β-\\ε" = .ok mixed
      ∧ mixed.textWith ", " false = .ok "␣, \\-, β-\\ε"
      ∧ readWith "," "␣, \\-, β-\\ε" = .ok mixed.withoutEmpty := by
  have hall : mixed.textWith ", " true = .ok "ε, ␣, \\-, β-\\ε" := by decide +kernel
  have hchars : mixed.textWith ", " false = .ok "␣, \\-, β-\\ε" := by decide +kernel
  obtain ⟨hempty, hrest⟩ := readWith_textWith_canonical mixed
  obtain ⟨text, htext, hread⟩ := hempty (by decide)
  obtain ⟨text', htext', hread'⟩ := hrest ⟨'-', by decide⟩
  rw [hall, Except.ok.injEq] at htext
  rw [hchars, Except.ok.injEq] at htext'
  exact ⟨hall, htext ▸ hread, hchars, htext' ▸ hread'⟩

end FiniteAutomata.SymbolSet
