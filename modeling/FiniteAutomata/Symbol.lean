/-
  FiniteAutomata.Symbol
  ─────────────────────
  Input symbols.

  A symbol is a character or the empty symbol, which labels edges that consume
  no input and stands before every character.  A character is allowed as a
  symbol if it is ASCII or lies in one of the `blocks`, the ranges of code
  points that a range of symbols may span.
-/
import FiniteAutomata.OrderedSet
import FiniteAutomata.Text.Quoted

namespace FiniteAutomata

/-- A symbol that an edge can be labelled with. -/
inductive Symbol where
  /-- The empty symbol: following the edge consumes no input. -/
  | empty
  /-- A character of the input. -/
  | char (c : Char)
  deriving DecidableEq, Repr

namespace Symbol

/-! ## §1. Order. -/

/-- The code point of a character; the empty symbol counts as minus one. -/
def point : Symbol → Int
  | .empty => -1
  | .char c => c.toNat

theorem point_injective {a b : Symbol} (h : a.point = b.point) : a = b := by
  cases a <;> cases b <;> simp only [point] at h
  · rfl
  · omega
  · omega
  · congr 1
    exact Char.toNat_inj.1 (by omega)

instance : LT Symbol := ⟨fun a b => a.point < b.point⟩

instance : KeyOrder Symbol where
  decideLt a b := inferInstanceAs (Decidable (a.point < b.point))
  irrefl a := Int.lt_irrefl a.point
  trans := Int.lt_trans
  trichotomy a b := by
    rcases Int.lt_trichotomy a.point b.point with h | h | h
    · exact Or.inl h
    · exact Or.inr (Or.inl (point_injective h))
    · exact Or.inr (Or.inr h)

/-! ## §2. Allowed symbols. -/

/-- The blocks that a range of symbols may span: the digits, the Latin capitals
and small letters, the Greek ones and the Cyrillic ones. -/
def blocks : List CharRange :=
  [⟨0x30, 0x39⟩, ⟨0x41, 0x5a⟩, ⟨0x61, 0x7a⟩, ⟨0x391, 0x3a9⟩, ⟨0x3b1, 0x3c9⟩,
   ⟨0x410, 0x42f⟩, ⟨0x430, 0x44f⟩]

/-- The block of a character. -/
def blockOf? (c : Char) : Option CharRange := CharRange.find? blocks c

/-- Whether a character may be a symbol. -/
def isAllowedChar (c : Char) : Bool := c.toNat < 0x80 || (blockOf? c).isSome

/-- Whether a symbol may be a member of a symbol set. -/
def isAllowed : Symbol → Bool
  | .empty => true
  | .char c => isAllowedChar c

/-! ## §3. One-character texts. -/

/-- The symbol that a text of at most one character stands for. -/
def ofText? (text : String) : Option Symbol :=
  match text.toList with
  | [] => some .empty
  | [c] => some (.char c)
  | _ => none

/-- The text of a symbol: nothing for the empty symbol. -/
def toText : Symbol → String
  | .empty => ""
  | .char c => String.singleton c

end Symbol

/-! ## §4. What can be wrong with symbol text. -/

/-- The reasons for which symbols or their text are refused. -/
inductive SymbolError where
  /-- The empty symbol stands at an end of a range. -/
  | emptyBound
  /-- The ends of a range lie in no common block. -/
  | splitRange (first last : Char)
  /-- The last symbol of a range stands before the first. -/
  | reversedRange (first last : Char)
  /-- The character is not allowed as a symbol. -/
  | notAllowed (c : Char)
  /-- A text that should be one symbol has several characters. -/
  | notOneCharacter (text : String)
  /-- The delimiter to read by is not one character. -/
  | delimiterLength
  /-- The delimiter to write by has a character that no escape can stand for. -/
  | delimiterReserved (delimiter : String)
  deriving DecidableEq, Repr

/-- The wording of a refusal. -/
def SymbolError.message : SymbolError → String
  | .emptyBound => "the empty symbol cannot bound a range"
  | .splitRange a b =>
      s!"invalid range {a}-{b}: endpoints must share a range block"
  | .reversedRange a b => s!"invalid range {a}-{b}: start is after end"
  | .notAllowed c => s!"symbol {Text.quoted (String.singleton c)} is not allowed"
  | .notOneCharacter text =>
      s!"symbol must be a single character, got {Text.quoted text}"
  | .delimiterLength => "delimiter must be a single character"
  | .delimiterReserved delimiter =>
      s!"delimiter {Text.quoted delimiter} cannot be escaped in symbol text"

end FiniteAutomata
