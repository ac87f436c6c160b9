/-
  FiniteAutomata.Text.Quoted
  ──────────────────────────
  Quoted text, as messages show it.

  The quote is `'`, or `"` for a text that has a `'` and no `"`.  The backslash
  and the quote are escaped with a backslash, the line feed, carriage return and
  tab by their letters, and any other unprintable character by its code point in
  the shortest of the forms `\xXX`, `\uXXXX` and `\UXXXXXXXX`.
-/
import FiniteAutomata.Text.Printable

namespace FiniteAutomata.Text

/-- The `width` lowest digits of a number in base sixteen, lower case. -/
def hexDigits : (width : Nat) → Nat → List Char
  | 0, _ => []
  | width + 1, n => hexDigits width (n / 16) ++ [Nat.digitChar (n % 16)]

/-- The escape of a character by its code point. -/
def escapeCodePoint (c : Char) : List Char :=
  let n := c.toNat
  if n < 0x100 then '\\' :: 'x' :: hexDigits 2 n
  else if n < 0x10000 then '\\' :: 'u' :: hexDigits 4 n
  else '\\' :: 'U' :: hexDigits 8 n

/-- One character of a text between two `quote`s. -/
def quoteChar (quote c : Char) : List Char :=
  if c = '\\' || c = quote then ['\\', c]
  else if c = '\n' then ['\\', 'n']
  else if c = '\r' then ['\\', 'r']
  else if c = '\t' then ['\\', 't']
  else if isPrintable c then [c]
  else escapeCodePoint c

/-- The quote that stands around a text. -/
def quoteFor (cs : List Char) : Char :=
  if '\x27' ∈ cs && '\x22' ∉ cs then '\x22' else '\x27'

/-- The quoted form of a list of characters. -/
def quoteChars (cs : List Char) : List Char :=
  let quote := quoteFor cs
  quote :: cs.flatMap (quoteChar quote) ++ [quote]

/-- The quoted form of a text. -/
def quoted (text : String) : String := String.ofList (quoteChars text.toList)

end FiniteAutomata.Text
