/-
  FiniteAutomata.SymbolSet.Printer
  ────────────────────────────────
  **The canonical text of a symbol set.**

  The empty symbol comes first, then the characters in order.  Characters that
  follow each other within one block make a run; a run of three or more is
  written as a range if that is strictly shorter than the list.  Characters with
  a meaning in symbol text are escaped, those of the delimiter among them.
-/
import FiniteAutomata.SymbolSet.Reader

namespace FiniteAutomata.SymbolSet

/-! ## §1. Single characters. -/

/-- The characters of a delimiter that need an escape where they are symbols. -/
def reservedChars (delimiter : List Char) : List Char :=
  delimiter.filter (!isGap ·)

/-- A character of symbol text. -/
def escapeChar (reserved : List Char) (c : Char) : List Char :=
  match c with
  | '\\' => ['\\', '\\']
  | ',' => ['\\', ',']
  | '-' => ['\\', '-']
  | '~' => ['\\', '~']
  | 'ε' => ['\\', 'ε']
  | ' ' => ['␣']
  | '\n' => ['\\', 'n']
  | '\r' => ['\\', 'r']
  | '\t' => ['\\', 't']
  | '\x0c' => ['\\', 'f']
  | '\x0b' => ['\\', 'v']
  | c => if c ∈ reserved then ['\\', c] else [c]

/-! ## §2. Runs. -/

/-- Whether `d` comes right behind `c` in the same block. -/
def follows (c d : Char) : Bool :=
  d.toNat = c.toNat + 1 &&
    match Symbol.blockOf? c with
    | some block => block.contains d
    | none => false

/-- The tokens of a run: its range or its members. -/
def runTokens (delimiter : List Char) (run : List Char) : List (List Char) :=
  let members := run.map (escapeChar (reservedChars delimiter))
  match members with
  | first :: _ :: _ :: _ =>
      -- A run of fewer than three members never makes a range.
      let range := first ++ '-' :: members.getLast?.getD []
      if range.length < (delimiter.intercalate members).length then [range]
      else members
  | few => few

/-! ## §3. Whole sets. -/

/-- The tokens of a set. -/
def tokens (delimiter : List Char) (includeEmpty : Bool) (s : SymbolSet) :
    List (List Char) :=
  (if includeEmpty && s.hasEmpty then [['ε']] else [])
    ++ (s.chars.splitBy follows).flatMap (runTokens delimiter)

/-- The text of a set, with a delimiter between tokens. -/
def render (delimiter : List Char) (includeEmpty : Bool) (s : SymbolSet) : String :=
  String.ofList (delimiter.intercalate (tokens delimiter includeEmpty s))

/-- The delimiter of the canonical text. -/
def canonicalDelimiter : List Char := [',', ' ']

/-- The canonical text of a set. -/
def text (s : SymbolSet) : String := s.render canonicalDelimiter true

/-- Whether a character means something else behind a backslash, or has a
meaning of its own that no backslash form stands for. -/
def isUnescapable (c : Char) : Bool :=
  c = 'n' || c = 'r' || c = 't' || c = 'f' || c = 'v' || c = '␣'

/-- The text of a set by a delimiter of the caller's, none of whose characters
may be unescapable. -/
def textWith (delimiter : String) (includeEmpty : Bool) (s : SymbolSet) :
    Except SymbolError String :=
  if (reservedChars delimiter.toList).any isUnescapable then
    .error (.delimiterReserved delimiter)
  else .ok (s.render delimiter.toList includeEmpty)

/-- The set as a message shows it. -/
def describe (s : SymbolSet) : String := "SymbolGroup(" ++ Text.quoted s.text ++ ")"

end FiniteAutomata.SymbolSet
