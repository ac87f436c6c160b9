/-
  FiniteAutomata.Json.Printer
  ───────────────────────────
  JSON text from values, in two layouts.

  The indented layout gives each item and member a line of its own, two spaces
  deeper than its container, and escapes only the quote, the backslash and the
  control characters.  The compact layout writes a value on one line in ASCII.
-/
import FiniteAutomata.Json.Basic
import FiniteAutomata.Binary64.Shortest
import FiniteAutomata.Text.Quoted

namespace FiniteAutomata.Json

open FiniteAutomata.Text (hexDigits)

/-! ## §1. Scalars. -/

/-- The escape of a code unit below 2¹⁶. -/
def unitEscape (n : Nat) : List Char := '\\' :: 'u' :: hexDigits 4 n

/-- A character of a string. -/
def escapeChar (c : Char) : List Char :=
  match c with
  | '\x22' => ['\\', '\x22']
  | '\\' => ['\\', '\\']
  | '\n' => ['\\', 'n']
  | '\r' => ['\\', 'r']
  | '\t' => ['\\', 't']
  | '\x0c' => ['\\', 'f']
  | '\x08' => ['\\', 'b']
  | c => if c.toNat < 0x20 then unitEscape c.toNat else [c]

/-- A string between its quotes. -/
def stringText (s : String) : List Char :=
  '\x22' :: s.toList.flatMap escapeChar ++ ['\x22']

/-- An integer in decimal digits. -/
def intText : Int → List Char
  | .ofNat n => Nat.toDigits 10 n
  | .negSucc n => '-' :: Nat.toDigits 10 (n + 1)

/-- A floating-point number. -/
def floatText : Binary64 → List Char
  | .nan => "NaN".toList
  | .infinite negative => (if negative then "-Infinity" else "Infinity").toList
  | x => x.text.toList

/-! ## §2. The indented layout. -/

/-- The start of a new line at a depth. -/
def newLine (depth : Nat) : List Char := '\n' :: List.replicate (2 * depth) ' '

mutual

/-- A value whose first line stands at `depth`. -/
def indented (depth : Nat) : Json → List Char
  | .null => "null".toList
  | .bool b => (if b then "true" else "false").toList
  | .int n => intText n
  | .float x => floatText x
  | .str s => stringText s
  | .arr [] => ['[', ']']
  | .arr (v :: vs) =>
      '[' :: newLine (depth + 1) ++ indented (depth + 1) v
        ++ furtherItems (depth + 1) vs ++ newLine depth ++ [']']
  | .obj [] => ['\x7b', '\x7d']
  | .obj ((k, v) :: ms) =>
      '\x7b' :: newLine (depth + 1) ++ stringText k ++ [':', ' ']
        ++ indented (depth + 1) v ++ furtherMembers (depth + 1) ms
        ++ newLine depth ++ ['\x7d']

/-- The items behind the first. -/
def furtherItems (depth : Nat) : List Json → List Char
  | [] => []
  | v :: vs => ',' :: newLine depth ++ indented depth v ++ furtherItems depth vs

/-- The members behind the first. -/
def furtherMembers (depth : Nat) : List (String × Json) → List Char
  | [] => []
  | (k, v) :: ms =>
      ',' :: newLine depth ++ stringText k ++ [':', ' '] ++ indented depth v
        ++ furtherMembers depth ms

end

/-- The indented text of a value. -/
def pretty (v : Json) : String := String.ofList (indented 0 v)

/-! ## §3. The compact layout. -/

/-- A character of a string in ASCII: any other character is escaped, as a pair
of surrogates if it lies above U+FFFF. -/
def escapeAscii (c : Char) : List Char :=
  let n := c.toNat
  -- DEL is ASCII, but it is escaped too.
  if n < 0x7f then escapeChar c
  else if n < 0x10000 then unitEscape n
  else unitEscape (0xd800 + (n - 0x10000) / 0x400)
    ++ unitEscape (0xdc00 + (n - 0x10000) % 0x400)

/-- A string between its quotes, in ASCII. -/
def asciiText (s : String) : String :=
  String.ofList ('\x22' :: s.toList.flatMap escapeAscii ++ ['\x22'])

mutual

/-- The compact text of a value. -/
def compact : Json → String
  | .null => "null"
  | .bool b => if b then "true" else "false"
  | .int n => String.ofList (intText n)
  | .float x => String.ofList (floatText x)
  | .str s => asciiText s
  | .arr vs => "[" ++ compactItems true vs ++ "]"
  | .obj ms => "\x7b" ++ compactMembers true ms ++ "\x7d"

/-- Items with a comma before each, the first perhaps excepted. -/
def compactItems (first : Bool) : List Json → String
  | [] => ""
  | v :: vs => (if first then "" else ",") ++ compact v ++ compactItems false vs

/-- Members with a comma before each, the first perhaps excepted. -/
def compactMembers (first : Bool) : List (String × Json) → String
  | [] => ""
  | (k, v) :: ms =>
      (if first then "" else ",") ++ asciiText k ++ ":" ++ compact v
        ++ compactMembers false ms

end

end FiniteAutomata.Json
