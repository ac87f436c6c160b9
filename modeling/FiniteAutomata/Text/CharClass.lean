/-
  FiniteAutomata.Text.CharClass
  ─────────────────────────────
  **Classes of characters.**

  A class is a table of ranges of code points.  The blank characters are those of
  Unicode's bidirectional types WS, B and S or of its category Zs; the decimal
  digits are those of category Nd, of all scripts.
-/
namespace FiniteAutomata

/-! ## §1. Ranges. -/

/-- The characters from code point `first` to code point `last`, both included. -/
structure CharRange where
  first : Nat
  last : Nat
  deriving DecidableEq, Repr

namespace CharRange

/-- Whether a character lies in the range. -/
def contains (r : CharRange) (c : Char) : Bool :=
  r.first ≤ c.toNat && c.toNat ≤ r.last

theorem contains_iff {r : CharRange} {c : Char} :
    r.contains c = true ↔ r.first ≤ c.toNat ∧ c.toNat ≤ r.last := by
  simp [contains]

/-- The first range of a table that holds a character. -/
def find? (table : List CharRange) (c : Char) : Option CharRange :=
  table.find? (·.contains c)

/-- Whether some range of a table holds a character. -/
def covers (table : List CharRange) (c : Char) : Bool :=
  table.any (·.contains c)

end CharRange

namespace Text

/-! ## §2. Blanks. -/

/-- The ranges of blank characters. -/
def blankRanges : List CharRange :=
  [⟨0x9, 0xd⟩, ⟨0x1c, 0x20⟩, ⟨0x85, 0x85⟩, ⟨0xa0, 0xa0⟩, ⟨0x1680, 0x1680⟩,
   ⟨0x2000, 0x200a⟩, ⟨0x2028, 0x2029⟩, ⟨0x202f, 0x202f⟩, ⟨0x205f, 0x205f⟩,
   ⟨0x3000, 0x3000⟩]

/-- Whether a character is blank. -/
def isBlank (c : Char) : Bool := CharRange.covers blankRanges c

/-- Whether a text has no character other than blanks. -/
def isBlankText (cs : List Char) : Bool := cs.all isBlank

/-! ## §3. Decimal digits. -/

/-- The code points of the digit zero in each script; the digits of one script are
ten consecutive characters. -/
def zeroDigits : List Nat :=
  [0x30, 0x660, 0x6f0, 0x7c0, 0x966, 0x9e6, 0xa66, 0xae6, 0xb66, 0xbe6, 0xc66,
   0xce6, 0xd66, 0xde6, 0xe50, 0xed0, 0xf20, 0x1040, 0x1090, 0x17e0, 0x1810,
   0x1946, 0x19d0, 0x1a80, 0x1a90, 0x1b50, 0x1bb0, 0x1c40, 0x1c50, 0xa620,
   0xa8d0, 0xa900, 0xa9d0, 0xa9f0, 0xaa50, 0xabf0, 0xff10, 0x104a0, 0x10d30,
   0x11066, 0x110f0, 0x11136, 0x111d0, 0x112f0, 0x11450, 0x114d0, 0x11650,
   0x116c0, 0x11730, 0x118e0, 0x11950, 0x11c50, 0x11d50, 0x11da0, 0x16a60,
   0x16ac0, 0x16b50, 0x1d7ce, 0x1d7d8, 0x1d7e2, 0x1d7ec, 0x1d7f6, 0x1e140,
   0x1e2f0, 0x1e950, 0x1fbf0]

/-- The value of a decimal digit. -/
def digitValue? (c : Char) : Option Nat :=
  (zeroDigits.find? fun z => z ≤ c.toNat && c.toNat < z + 10).map (c.toNat - ·)

end Text

end FiniteAutomata
