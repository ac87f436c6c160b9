/-
  FiniteAutomata.SymbolSet.Reader
  ───────────────────────────────
  **Symbol sets from text.**

  Symbol text lists symbols and ranges between delimiters:

      a, c-f, \n, ␣, ε

  A symbol is a literal character, a backslash with an escaped character, `␣`
  for the space, or `ε` or `~` for the empty symbol; a range joins two symbols
  of one block by a dash.  Blanks count only behind a backslash.  A text of one
  character is taken literally, and a blank text of any other length has the
  empty symbol.

  Reading goes in two stages: the text becomes lexemes (`lexemes`), in which a
  character and an escaped character are told apart, and the lexemes without
  blanks become symbols (`readLexemes`).
-/
import FiniteAutomata.SymbolSet.Basic
import FiniteAutomata.Text.CharClass

namespace FiniteAutomata.SymbolSet

/-! ## §1. Lexemes. -/

/-- A character of symbol text, as it stands there or behind a backslash. -/
inductive Lexeme where
  | raw (c : Char)
  /-- The character that a backslash and a further character stand for. -/
  | escaped (c : Char)
  deriving DecidableEq, Repr

/-- The blanks of symbol text. -/
def isGap (c : Char) : Bool :=
  c = ' ' || c = '\t' || c = '\n' || c = '\r' || c = '\x0c' || c = '\x0b'

/-- The character that a backslash and `c` stand for. -/
def unescape (c : Char) : Char :=
  match c with
  | 'n' => '\n'
  | 'r' => '\r'
  | 't' => '\t'
  | 'f' => '\x0c'
  | 'v' => '\x0b'
  | c => c

/-- The lexemes of a text.  A backslash at the end of the text stands for
itself, and so does every backslash if there are no `escapes`. -/
def lexemes (escapes : Bool) : List Char → List Lexeme
  | [] => []
  | [c] => [.raw c]
  | c :: d :: rest =>
      -- The escaped character is read here, so it cannot act as anything else.
      if escapes && c = '\\' then .escaped (unescape d) :: lexemes escapes rest
      else .raw c :: lexemes escapes (d :: rest)

namespace Lexeme

/-- Whether the lexeme is a blank that does not count. -/
def isGap : Lexeme → Bool
  | .raw c => SymbolSet.isGap c
  | .escaped _ => false

/-- The symbol that a lexeme stands for. -/
def symbol : Lexeme → Symbol
  | .raw c =>
      if c = '~' || c = 'ε' then .empty
      else if c = '␣' then .char ' '
      else .char c
  | .escaped c => .char c

end Lexeme

/-! ## §2. Symbols and ranges. -/

/-- The characters from `first` to `last`. -/
def charsBetween (first last : Char) : List Symbol :=
  (List.range' first.toNat (last.toNat + 1 - first.toNat)).map fun n =>
    .char (Char.ofNat n)

/-- The symbols of a range, whose ends must lie in one block and in order. -/
def expandRange (first last : Symbol) : Except SymbolError (List Symbol) :=
  match first, last with
  | .char a, .char b =>
      match Symbol.blockOf? a with
      | none => .error (.splitRange a b)
      | some block =>
          if !block.contains b then .error (.splitRange a b)
          else if b.toNat < a.toNat then .error (.reversedRange a b)
          else .ok (charsBetween a b)
  | _, _ => .error .emptyBound

/-- The symbols that lexemes without blanks list.  A symbol, a dash and a
further lexeme are a range unless that lexeme is the delimiter. -/
def readLexemes (delimiter : Char) : List Lexeme → Except SymbolError (List Symbol)
  | [] => .ok []
  | x :: .raw '-' :: y :: rest =>
      -- A delimiter cannot begin a range.
      if x = .raw delimiter then readLexemes delimiter (.raw '-' :: y :: rest)
      -- A dash before a delimiter is a symbol of its own.
      else if y = .raw delimiter then do
        let symbols ← readLexemes delimiter (.raw '-' :: y :: rest)
        return x.symbol :: symbols
      else do
        let range ← expandRange x.symbol y.symbol
        let symbols ← readLexemes delimiter rest
        return range ++ symbols
  | x :: rest =>
      if x = .raw delimiter then readLexemes delimiter rest
      else do
        let symbols ← readLexemes delimiter rest
        return x.symbol :: symbols

/-! ## §3. Whole texts. -/

/-- The lexemes of a text that count.  A backslash that serves as delimiter
escapes nothing. -/
def significantLexemes (delimiter : Char) (text : List Char) : List Lexeme :=
  (lexemes (delimiter ≠ '\\') text).filter (!·.isGap)

/-- The symbols that a text lists. -/
def symbolsOfText (delimiter : Char) : List Char → Except SymbolError (List Symbol)
  | [] => .ok [.empty]
  | [c] => .ok [(Lexeme.raw c).symbol]
  | text => do
      let symbols ← readLexemes delimiter (significantLexemes delimiter text)
      -- A blank text may still hold blanks that are symbols.
      return if Text.isBlankText text then .empty :: symbols else symbols

/-- The symbol set that a text lists between delimiters. -/
def readBy (delimiter : Char) (text : String) : Except SymbolError SymbolSet := do
  let symbols ← symbolsOfText delimiter text.toList
  ofSymbols (OrderedSet.ofList symbols)

/-- The symbol set that a text lists between commas. -/
def read (text : String) : Except SymbolError SymbolSet := readBy ',' text

/-- The symbol set that a text lists between delimiters, which must be one
character. -/
def readWith (delimiter text : String) : Except SymbolError SymbolSet :=
  match delimiter.toList with
  | [d] => readBy d text
  | _ => .error .delimiterLength

end FiniteAutomata.SymbolSet
