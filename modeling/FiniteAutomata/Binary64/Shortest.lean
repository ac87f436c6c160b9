/-
  FiniteAutomata.Binary64.Shortest
  ────────────────────────────────
  The text of a floating-point number: the fewest digits that read back.

  For 1, 2, … 17 digits the two neighbours of the exact value on that decimal
  grid are read back; the first grid with a hit gives the digits, and of two
  hits the nearer one, a tie going to the even digit.
-/
import FiniteAutomata.Binary64.Basic

namespace FiniteAutomata.Binary64

/-! ## §1. The digits. -/

/-- The least power of ten, from `10 ^ places` on, that brings the quotient to
one or more; at most `fuel` powers are tried. -/
def leadingPlaces (num den : Nat) : (fuel places : Nat) → Nat
  | 0, places => places
  | fuel + 1, places =>
      if den ≤ num * Nat.pow 10 places then places
      else leadingPlaces num den fuel (places + 1)

/-- The number of digits before the decimal point of a positive quotient; for
one below a tenth it is negative. -/
def pointPosition (num den : Nat) : Int :=
  if den ≤ num then (Nat.toDigits 10 (num / den)).length
  else 1 - leadingPlaces num den 400 1

/-- The digits, as a number and the power of ten that it multiplies. -/
structure Digits where
  digits : Nat
  exponent : Int

/-- The neighbour of the quotient on the grid of multiples of `10 ^ exponent`
that reads back as `x`, the nearer one if both do. -/
def hit? (x : Binary64) (num den : Nat) (exponent : Int) : Option Digits :=
  let (n, d) := match exponent with
    | .ofNat e => (num, den * Nat.pow 10 e)
    | .negSucc e => (num * Nat.pow 10 (e + 1), den)
  -- The grid points around the value are `low` and `low + 1`.
  let low := n / d
  let readsBack (c : Nat) : Bool := ofDecimal false c exponent = x
  let nearest := roundQuotient n d
  let other := if nearest = low then low + 1 else low
  if readsBack nearest then some ⟨nearest, exponent⟩
  else if readsBack other then some ⟨other, exponent⟩
  else none

/-- The first of the grids with `count`, `count + 1`, … digits that has a hit. -/
def firstHit (x : Binary64) (num den : Nat) (point : Int) :
    (fuel count : Nat) → Option Digits
  | 0, _ => none
  | fuel + 1, count =>
      match hit? x num den (point - count) with
      | some d => some d
      | none => firstHit x num den point fuel (count + 1)

/-- The fewest digits that read back as `significand · 2 ^ exponent`. -/
def shortestDigits (significand : Nat) (exponent : Int) : Digits :=
  let x : Binary64 := .finite false significand exponent
  match x.ratio? with
  | some (num, den) =>
      let n := num.toNat
      -- Seventeen digits always read back.
      (firstHit x n den (pointPosition n den) 17 1).getD ⟨0, 0⟩
  | none => ⟨0, 0⟩

/-! ## §2. The layout. -/

/-- Digits without the zeros at their end. -/
def dropTrailingZeros (ds : List Char) : List Char :=
  (ds.reverse.dropWhile (· = '0')).reverse

/-- The exponent part: a sign and at least two digits. -/
def exponentText (e : Int) : List Char :=
  let ds := Nat.toDigits 10 e.natAbs
  let ds := if ds.length < 2 then '0' :: ds else ds
  'e' :: (if e < 0 then '-' else '+') :: ds

/-- Positional notation from `10 ^ -4` up to `10 ^ 16`, with at least one digit
on each side of the point; elsewhere one digit before the point, the others
after it if there are any, and an exponent. -/
def layOut (ds : List Char) (point : Int) : List Char :=
  if -4 < point && point ≤ 16 then
    match point with
    -- `point` is the number of digits in front of the point.
    | .ofNat 0 => '0' :: '.' :: ds
    | .ofNat p =>
        let whole := ds.take p ++ List.replicate (p - ds.length) '0'
        let rest := ds.drop p
        whole ++ '.' :: (if rest = [] then ['0'] else rest)
    | .negSucc p => '0' :: '.' :: List.replicate (p + 1) '0' ++ ds
  else
    let mantissa := match ds with
      | d :: e :: rest => d :: '.' :: e :: rest
      | short => short
    mantissa ++ exponentText (point - 1)

/-- The text of a number. -/
def text : Binary64 → String
  | .nan => "nan"
  | .infinite negative => if negative then "-inf" else "inf"
  | .finite negative m e =>
      let body :=
        if m = 0 then ['0', '.', '0']
        else
          let d := shortestDigits m e
          let ds := Nat.toDigits 10 d.digits
          layOut (dropTrailingZeros ds) (ds.length + d.exponent)
      String.ofList (if negative then '-' :: body else body)

end FiniteAutomata.Binary64
