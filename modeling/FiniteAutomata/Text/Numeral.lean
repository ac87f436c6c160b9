/-
  FiniteAutomata.Text.Numeral
  ───────────────────────────
  **Integers in text.**

  A numeral is an optional sign and decimal digits of any script, with single
  underscores allowed between digits and padding around the whole.  A text whose
  digits run on beyond the limit is refused for its length, whatever stands
  behind them.
-/
import FiniteAutomata.Text.CharClass

namespace FiniteAutomata.Text

/-- The reasons for which a text is refused as an integer. -/
inductive NumeralError where
  /-- The text writes no integer. -/
  | malformed
  /-- The text has more digits than the limit allows. -/
  | tooLong (digits : Nat)
  deriving DecidableEq, Repr

/-- The greatest number of digits that is read. -/
def digitLimit : Nat := 4300

/-- The wording of a refusal for length. -/
def tooLongMessage (digits : Nat) : String :=
  s!"Exceeds the limit ({digitLimit} digits) for integer string conversion: "
    ++ s!"value has {digits} digits; use sys.set_int_max_str_digits() to increase the limit"

/-- Whether a character may stand around an integer: a blank that is not one of
the four information separators. -/
def isPadding (c : Char) : Bool := isBlank c && !CharRange.contains ⟨0x1c, 0x1f⟩ c

/-- Whether a character may stand in a run of digits. -/
def isNumeralChar (c : Char) : Bool := c = '_' || (digitValue? c).isSome

/-- Whether every underscore of a run of digits stands between two digits. -/
def isWellSpaced (run : List Char) : Bool :=
  run ≠ [] && run.head? ≠ some '_' && run.getLast? ≠ some '_'
    && (run.zip run.tail).all fun (c, d) => c ≠ '_' || d ≠ '_'

/-- The number that digits write, most significant first. -/
def valueOfDigits (digits : List Nat) : Nat := digits.foldl (fun n d => 10 * n + d) 0

/-- The number that an unsigned numeral writes. -/
def readNat (cs : List Char) : Except NumeralError Nat :=
  let run := cs.takeWhile isNumeralChar
  let digits := run.filterMap digitValue?
  if !isWellSpaced run then .error .malformed
  -- The length is judged before what follows the digits.
  else if digitLimit < digits.length then .error (.tooLong digits.length)
  else if (cs.dropWhile isNumeralChar).all isPadding then .ok (valueOfDigits digits)
  else .error .malformed

/-- The integer that a text writes. -/
def readInt (text : String) : Except NumeralError Int :=
  match text.toList.dropWhile isPadding with
  | '-' :: cs => (readNat cs).map fun n => -(n : Int)
  | '+' :: cs => (readNat cs).map Int.ofNat
  | cs => (readNat cs).map Int.ofNat

end FiniteAutomata.Text
