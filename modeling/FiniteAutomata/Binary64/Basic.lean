/-
  FiniteAutomata.Binary64.Basic
  ─────────────────────────────
  Floating-point numbers of 64 bits, as exact values.

  A finite number is a signed multiple of a power of two.  Decimal text becomes
  the nearest such number, a tie going to the even significand; comparison and
  truncation are exact.
-/
namespace FiniteAutomata

/-- A binary floating-point number with 53 bits of precision.  A finite one is
`significand · 2 ^ exponent`, negated or not. -/
inductive Binary64 where
  | finite (negative : Bool) (significand : Nat) (exponent : Int)
  | infinite (negative : Bool)
  | nan
  deriving DecidableEq, Repr

namespace Binary64

/-! ## §1. Rounding. -/

/-- The quotient rounded to the nearest integer, a tie going to the even one. -/
def roundQuotient (num den : Nat) : Nat :=
  let q := num / den
  let r := num % den
  if 2 * r < den then q
  else if den < 2 * r then q + 1
  else if q % 2 = 0 then q else q + 1

/-- `num / den · 2 ^ -exponent`, as a quotient. -/
def scaleBy (num den : Nat) : (exponent : Int) → Nat × Nat
  | .ofNat e => (num, den * Nat.pow 2 e)
  | .negSucc e => (num * Nat.pow 2 (e + 1), den)

/-- The least exponent of a finite number. -/
def leastExponent : Int := -1074

/-- The greatest exponent of a finite number. -/
def greatestExponent : Int := 971

/-- The exponent at which a positive quotient has 53 bits before the point, or
the least exponent if that is greater. -/
def exponentFor (num den : Nat) : Int :=
  -- The logarithms are rounded down, so the guess is right or one too low.
  let guess : Int := (Nat.log2 num : Int) - Nat.log2 den - 53
  let fits (e : Int) : Bool :=
    let (n, d) := scaleBy num den e
    n < d * Nat.pow 2 53
  let exponent := if fits guess then guess else guess + 1
  if exponent < leastExponent then leastExponent else exponent

/-- The number nearest to a quotient. -/
def ofQuotient (negative : Bool) (num den : Nat) : Binary64 :=
  if num = 0 then .finite negative 0 leastExponent
  else
    let e := exponentFor num den
    let (n, d) := scaleBy num den e
    let m := roundQuotient n d
    -- Rounding up may need one bit more; the bit below is then zero.
    let (m, e) := if m = Nat.pow 2 53 then (Nat.pow 2 52, e + 1) else (m, e)
    if greatestExponent < e then .infinite negative else .finite negative m e

/-- The number nearest to `digits · 10 ^ exponent`.  Beyond 400 decimal places
from the point the answer is zero or infinite without further ado. -/
def ofDecimal (negative : Bool) (digits : Nat) (exponent : Int) : Binary64 :=
  let magnitude : Int := (Nat.toDigits 10 digits).length + exponent
  if digits = 0 || magnitude < -400 then .finite negative 0 leastExponent
  else if 400 < magnitude then .infinite negative
  else match exponent with
    | .ofNat e => ofQuotient negative (digits * Nat.pow 10 e) 1
    | .negSucc e => ofQuotient negative digits (Nat.pow 10 (e + 1))

/-! ## §2. Exact values. -/

/-- The exact value of a finite number, as numerator and positive denominator. -/
def ratio? : Binary64 → Option (Int × Nat)
  | .finite negative m e =>
      -- The sign goes to the numerator, so the denominator is positive.
      let sign : Int := if negative then -1 else 1
      match e with
      | .ofNat k => some (sign * (m * Nat.pow 2 k : Nat), 1)
      | .negSucc k => some (sign * m, Nat.pow 2 (k + 1))
  | _ => none

/-- The integer next to a finite number on the side of zero. -/
def truncate? (x : Binary64) : Option Int :=
  x.ratio?.map fun (num, den) => num.tdiv den

/-- The integer that a number equals. -/
def toInt? (x : Binary64) : Option Int :=
  x.ratio?.bind fun (num, den) => if num % den = 0 then some (num / den) else none

end Binary64

end FiniteAutomata
