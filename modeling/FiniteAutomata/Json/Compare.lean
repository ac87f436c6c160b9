/-
  FiniteAutomata.Json.Compare
  ───────────────────────────
  **Likeness and order of values.**

  Two values that are written differently may be alike: numbers are compared by
  what they are worth, where the truth values are worth one and zero, and the
  order of the members of an object does not count.  Numbers and texts have an
  order, each among themselves.
-/
import FiniteAutomata.Json.Number

namespace FiniteAutomata.Json

/-! ## §1. Likeness. -/

/-- Whether two values are numbers of the same worth; what is indefinite is worth
itself. -/
def isWorth (a b : Json) : Bool :=
  match a.quantity?, b.quantity? with
  | some x, some y => x = y || x.isSame y
  | _, _ => false

mutual

/-- Whether two values are alike. -/
def alike : Json → Json → Bool
  | .null, .null => true
  | .str s, .str t => s = t
  | .arr as, .arr bs => alikeItems as bs
  | .obj ms, .obj ns => ms.length = ns.length && alikeMembers ms ns
  | a, b => isWorth a b

/-- Whether two lists of values are alike, item by item. -/
def alikeItems : List Json → List Json → Bool
  | [], [] => true
  | a :: as, b :: bs => alike a b && alikeItems as bs
  | _, _ => false

/-- Whether each of some members is alike the member of its name among others. -/
def alikeMembers : List (String × Json) → List (String × Json) → Bool
  | [], _ => true
  | (k, v) :: ms, ns =>
      (match ns.lookup k with
        | some w => alike v w
        | none => false) && alikeMembers ms ns

end

/-- Whether two values are equal: an indefinite number does not even equal itself,
but as an item or a member it is alike itself. -/
def isEqual (a b : Json) : Bool := a ≠ .float .nan && alike a b

/-! ## §2. Order. -/

/-- Whether a text comes before another or is the same, character by character. -/
def textAtMost : List Char → List Char → Bool
  | [], _ => true
  | _ :: _, [] => false
  | c :: cs, d :: ds => c.toNat < d.toNat || (c = d && textAtMost cs ds)

/-- Values in ascending order, if they are all numbers or all texts.  A value by
itself needs no order. -/
def sorted? (vs : List Json) : Option (List Json) :=
  match vs with
  | [] | [_] => some vs
  | _ =>
      if vs.all fun v => v.quantity?.isSome then
        some (vs.mergeSort fun a b => b.less? a ≠ some true)
      else
        (vs.mapM asText?).map fun texts =>
          (texts.mergeSort fun s t => textAtMost s.toList t.toList).map .str

end FiniteAutomata.Json
