/-
  FiniteAutomata.Json.Number
  ──────────────────────────
  Values as numbers: exact comparison and conversion to an integer.

  Integers, floating-point numbers and the truth values are numbers, the latter
  as one and zero.  Conversion also takes a text that writes an integer, and cuts
  off what stands behind the point of a floating-point number.
-/
import FiniteAutomata.Json.Basic
import FiniteAutomata.Text.Numeral

namespace FiniteAutomata.Json

/-! ## §1. Comparison. -/

/-- The exact value of a number. -/
inductive Quantity where
  | ratio (num : Int) (den : Nat)
  | infinite (negative : Bool)
  | indefinite
  deriving DecidableEq, Repr

namespace Quantity

/-- Equality of value; what is indefinite equals nothing. -/
def isSame : Quantity → Quantity → Bool
  | .ratio a b, .ratio c d => a * d = c * b
  | .infinite a, .infinite b => a = b
  | _, _ => false

/-- Strict order; what is indefinite compares with nothing. -/
def isLess : Quantity → Quantity → Bool
  | .ratio a b, .ratio c d => a * d < c * b
  | .ratio _ _, .infinite negative => !negative
  | .infinite negative, .ratio _ _ => negative
  | .infinite a, .infinite b => a && !b
  | _, _ => false

/-- Order with equality; what is indefinite compares with nothing. -/
def isAtMost : Quantity → Quantity → Bool
  | .ratio a b, .ratio c d => a * d ≤ c * b
  | .infinite a, .infinite b => a || !b
  | x, y => x.isLess y

end Quantity

/-- The exact value of a value that is a number. -/
def quantity? : Json → Option Quantity
  | .bool b => some (.ratio (if b then 1 else 0) 1)
  | .int n => some (.ratio n 1)
  | .float .nan => some .indefinite
  | .float (.infinite negative) => some (.infinite negative)
  | .float x => x.ratio?.map fun (num, den) => .ratio num den
  | _ => none

/-- Whether a number is less than another; `none` if either is no number. -/
def less? (a b : Json) : Option Bool := do
  return (← a.quantity?).isLess (← b.quantity?)

/-- Whether a number is at most another; `none` if either is no number. -/
def atMost? (a b : Json) : Option Bool := do
  return (← a.quantity?).isAtMost (← b.quantity?)

/-! ## §2. Conversion. -/

/-- The reasons for which a value has no integer. -/
inductive IntegerError where
  /-- The value is neither a number nor a text. -/
  | illTyped
  /-- The text writes no integer that can be read. -/
  | numeral (error : Text.NumeralError)
  /-- The number is infinite. -/
  | infinite
  /-- The number is indefinite. -/
  | indefinite
  deriving DecidableEq, Repr

/-- The integer of a number, cut off at the point, or of a text. -/
def toInteger : Json → Except IntegerError Int
  | .int n => .ok n
  | .bool b => .ok (if b then 1 else 0)
  | .str s => (Text.readInt s).mapError .numeral
  | .float .nan => .error .indefinite
  | .float (.infinite _) => .error .infinite
  | .float (.finite negative m e) =>
      .ok ((Binary64.finite negative m e).truncate?.getD 0)
  | _ => .error .illTyped

/-! ## §3. Elements. -/

/-- The elements of a value: the items of an array, the characters of a text, the
names in an object; other values have none to go through. -/
def elements? : Json → Option (List Json)
  | .arr items => some items
  | .str s => some (s.toList.map fun c => .str (String.singleton c))
  | .obj members => some (members.map fun (k, _) => .str k)
  | _ => none

/-- The text of a value that is one. -/
def asText? : Json → Option String
  | .str s => some s
  | _ => none

end FiniteAutomata.Json
