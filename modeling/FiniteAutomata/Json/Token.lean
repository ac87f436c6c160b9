/-
  FiniteAutomata.Json.Token
  ─────────────────────────
  JSON text as a sequence of tokens.

  The scanner reads one character at a time: `Mode` says what it is in the midst
  of, `step` gives the tokens that a character completes and the next mode, and
  `scan` runs over a whole text.  Words (`true`, `-12`, `1.5e3`) extend as far
  as word characters go and are then classified; no JSON text has two of them
  side by side, so nothing is lost by that.

  Every text has tokens.  What is no JSON becomes a `malformed` token where it
  stands, and an integer of too many digits becomes a token of its own: which of
  several faults counts is then for the parser to say, which meets the first one
  first.
-/
import FiniteAutomata.Json.Basic
import FiniteAutomata.Text.Numeral

namespace FiniteAutomata.Json

/-! ## §1. Tokens and scanner modes. -/

/-- A token of JSON text. -/
inductive Token where
  | openArray
  | closeArray
  | openObject
  | closeObject
  | comma
  | colon
  | str (value : String)
  | scalar (value : Json)
  /-- An integer with more digits than the limit allows. -/
  | numeralTooLong (digits : Nat)
  /-- Characters that are no token. -/
  | malformed
  deriving DecidableEq

/-- What the scanner is in the midst of.  Characters and units already read are
held in reverse. -/
inductive Mode where
  /-- Between two tokens. -/
  | between
  /-- In a word. -/
  | word (read : List Char)
  /-- In a string, outside any escape. -/
  | text (units : List Nat)
  /-- Behind the backslash of an escape. -/
  | escape (units : List Nat)
  /-- In an escape by code unit, `left + 1` digits short of its end. -/
  | hex (units : List Nat) (left value : Nat)

/-! ## §2. Words. -/

/-- The value of a hexadecimal digit. -/
def hexValue? (c : Char) : Option Nat :=
  if '0' ≤ c && c ≤ '9' then some (c.toNat - '0'.toNat)
  else if 'a' ≤ c && c ≤ 'f' then some (c.toNat - 'a'.toNat + 10)
  else if 'A' ≤ c && c ≤ 'F' then some (c.toNat - 'A'.toNat + 10)
  else none

/-- The number that decimal digits write, most significant first. -/
def digitsValue (ds : List Char) : Nat :=
  ds.foldl (fun n d => 10 * n + (d.toNat - '0'.toNat)) 0

/-- The exponent part of a number behind its `e`. -/
def readExponent? : List Char → Option Int
  | '-' :: ds => if ds ≠ [] && ds.all Char.isDigit then some (-(digitsValue ds : Int)) else none
  | '+' :: ds => if ds ≠ [] && ds.all Char.isDigit then some (digitsValue ds) else none
  | ds => if ds ≠ [] && ds.all Char.isDigit then some (digitsValue ds) else none

/-- An unsigned number: an integer part without superfluous zeros, then perhaps
a fraction, then perhaps an exponent. -/
def readUnsigned? (negative : Bool) (cs : List Char) : Option Json :=
  let whole := cs.takeWhile Char.isDigit
  let rest := cs.dropWhile Char.isDigit
  -- A zero may begin the integer part only if it is all of it.
  if whole = [] || (whole.head? = some '0' && whole.length ≠ 1) then none
  else match rest with
    | [] =>
        let n : Int := digitsValue whole
        some (.int (if negative then -n else n))
    | '.' :: tail =>
        let fraction := tail.takeWhile Char.isDigit
        if fraction = [] then none
        else
          -- The point is moved behind the fraction, which lowers the exponent.
          let number (e : Int) : Json :=
            .float (.ofDecimal negative (digitsValue (whole ++ fraction)) (e - fraction.length))
          match tail.dropWhile Char.isDigit with
          | [] => some (number 0)
          | c :: e => if c = 'e' || c = 'E' then (readExponent? e).map number else none
    | c :: e =>
        if c = 'e' || c = 'E' then
          (readExponent? e).map fun e => .float (.ofDecimal negative (digitsValue whole) e)
        else none

/-- The value that a word stands for. -/
def readWord? (word : List Char) : Option Json :=
  if word = "null".toList then some .null
  else if word = "true".toList then some (.bool true)
  else if word = "false".toList then some (.bool false)
  else if word = "NaN".toList then some (.float .nan)
  else if word = "Infinity".toList then some (.float (.infinite false))
  else if word = "-Infinity".toList then some (.float (.infinite true))
  else match word with
    | '-' :: cs => readUnsigned? true cs
    | cs => readUnsigned? false cs

/-- Whether what stands behind the integer part of a number is a fraction or an
exponent. -/
def continuesNumber : List Char → Bool
  | '.' :: d :: _ => d.isDigit
  | c :: sign :: rest =>
      (c = 'e' || c = 'E')
        && (sign.isDigit || ((sign = '+' || sign = '-') && rest.head?.any Char.isDigit))
  | _ => false

/-- The digits of the integer at the beginning of a word, if they are more than
the limit allows; a fraction or an exponent behind them lifts the limit. -/
def excessDigits? (word : List Char) : Option Nat :=
  let cs := if word.head? = some '-' then word.tail else word
  let whole := cs.takeWhile Char.isDigit
  -- A number that begins with zero has no further digits before its point.
  if whole.head? ≠ some '0' && Text.digitLimit < whole.length
      && !continuesNumber (cs.dropWhile Char.isDigit) then some whole.length
  else none

/-- The token that a word is. -/
def wordToken (word : List Char) : Token :=
  match excessDigits? word, readWord? word with
  -- The length is judged whatever follows the digits.
  | some digits, _ => .numeralTooLong digits
  | none, some v => .scalar v
  | none, none => .malformed

/-! ## §3. Strings. -/

/-- The character of a code unit, U+FFFD for a lone surrogate. -/
def charOfUnit (n : Nat) : Char :=
  if n.isValidChar then Char.ofNat n else Char.ofNat 0xfffd

/-- The characters of a sequence of code units: a high surrogate and a low one
behind it are one character. -/
def charsOfUnits : List Nat → List Char
  | [] => []
  | [u] => [charOfUnit u]
  | h :: l :: rest =>
      if 0xd800 ≤ h && h < 0xdc00 && 0xdc00 ≤ l && l < 0xe000 then
        -- Ten bits from each of the two units.
        Char.ofNat (0x10000 + (h - 0xd800) * 0x400 + (l - 0xdc00)) :: charsOfUnits rest
      else charOfUnit h :: charsOfUnits (l :: rest)

/-- The character that a letter stands for behind a backslash. -/
def unescape? (c : Char) : Option Char :=
  match c with
  | '\x22' => some '\x22'
  | '\\' => some '\\'
  | '/' => some '/'
  | 'b' => some '\x08'
  | 'f' => some '\x0c'
  | 'n' => some '\n'
  | 'r' => some '\r'
  | 't' => some '\t'
  | _ => none

/-! ## §4. The scanner. -/

/-- Whether a character may stand between tokens. -/
def isSpace (c : Char) : Bool := c = ' ' || c = '\t' || c = '\n' || c = '\r'

/-- Whether a character may stand in a word. -/
def isWordChar (c : Char) : Bool := c.isAlphanum || c = '-' || c = '+' || c = '.'

/-- The token that a single character makes. -/
def punctuation? (c : Char) : Option Token :=
  match c with
  | '[' => some .openArray
  | ']' => some .closeArray
  | '\x7b' => some .openObject
  | '\x7d' => some .closeObject
  | ',' => some .comma
  | ':' => some .colon
  | _ => none

/-- A character that stands between tokens: the token if it makes one, and the
next mode. -/
def start (c : Char) : List Token × Mode :=
  if isSpace c then ([], .between)
  else if c = '\x22' then ([], .text [])
  else match punctuation? c with
    | some t => ([t], .between)
    | none => if isWordChar c then ([], .word [c]) else ([.malformed], .between)

/-- One character further: the tokens that it completes and the next mode. -/
def step : Mode → Char → List Token × Mode
  | .between, c => start c
  | .word read, c =>
      if isWordChar c then ([], .word (c :: read))
      else
        -- The character ends the word and is then read from between tokens.
        let (ts, m) := start c
        (wordToken read.reverse :: ts, m)
  | .text units, c =>
      if c = '\x22' then ([.str (String.ofList (charsOfUnits units.reverse))], .between)
      else if c = '\\' then ([], .escape units)
      else if c.toNat < 0x20 then ([.malformed], .between)
      else ([], .text (c.toNat :: units))
  | .escape units, c =>
      -- Four digits follow.
      if c = 'u' then ([], .hex units 3 0)
      else
        match unescape? c with
        | some d => ([], .text (d.toNat :: units))
        | none => ([.malformed], .between)
  | .hex units left value, c =>
      match hexValue? c, left with
      | some d, 0 => ([], .text ((16 * value + d) :: units))
      | some d, k + 1 => ([], .hex units k (16 * value + d))
      | none, _ => ([.malformed], .between)

/-- The tokens that the end of the text completes. -/
def finish : Mode → List Token
  | .between => []
  | .word read => [wordToken read.reverse]
  -- A string is left open.
  | .text _ | .escape _ | .hex _ _ _ => [.malformed]

/-- The tokens of a text, read from a given mode. -/
def scan (m : Mode) : List Char → List Token
  | [] => finish m
  | c :: cs =>
      let (ts, m') := step m c
      ts ++ scan m' cs

end FiniteAutomata.Json
