/-
  FiniteAutomata.Json.Literal
  ───────────────────────────
  Values as messages show them.

  A message quotes a value in its literal form: texts in quotes, `None`, `True`
  and `False` for null and the truth values, brackets around items.  Where a
  message names a value without quoting it, a text stands bare.
-/
import FiniteAutomata.Json.Basic
import FiniteAutomata.Binary64.Shortest
import FiniteAutomata.Text.Quoted

namespace FiniteAutomata.Json

mutual

/-- The literal form of a value. -/
def literal : Json → String
  | .null => "None"
  | .bool b => if b then "True" else "False"
  | .int n => toString n
  | .float x => x.text
  | .str s => Text.quoted s
  | .arr vs => "[" ++ literalItems true vs ++ "]"
  | .obj ms => "\x7b" ++ literalMembers true ms ++ "\x7d"

/-- Literal items with a comma before each, the first perhaps excepted. -/
def literalItems (first : Bool) : List Json → String
  | [] => ""
  | v :: vs => (if first then "" else ", ") ++ literal v ++ literalItems false vs

/-- Literal members with a comma before each, the first perhaps excepted. -/
def literalMembers (first : Bool) : List (String × Json) → String
  | [] => ""
  | (k, v) :: ms =>
      (if first then "" else ", ") ++ Text.quoted k ++ ": " ++ literal v
        ++ literalMembers false ms

end

/-- The form of a value that is named and not quoted. -/
def bare : Json → String
  | .str s => s
  | v => v.literal

end FiniteAutomata.Json
