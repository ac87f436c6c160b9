/-
  FiniteAutomata.Json.Parser
  ──────────────────────────
  JSON values from tokens.

  The parser takes one token at a time.  Its state says what may come next and
  keeps the containers that are still open; a text is well formed if its tokens
  lead from "a value is due" to "a value is complete" with none open.  Of two
  members of one name the later value counts.

  The first fault in the text is the one reported.  An integer of too many digits
  is reported as such where a value may begin; elsewhere any value is out of place.
-/
import FiniteAutomata.Json.Token

namespace FiniteAutomata.Json

/-- The reasons for which a text is refused. -/
inductive ParseError where
  /-- The text is not JSON. -/
  | malformed
  /-- An integer has more digits than the limit allows. -/
  | numeralTooLong (digits : Nat)
  deriving DecidableEq, Repr

/-- The wording of a refusal. -/
def ParseError.message : ParseError → String
  | .malformed => "the text is not JSON"
  | .numeralTooLong digits => Text.tooLongMessage digits

/-- A container that is still open. -/
inductive Frame where
  /-- An array; its items so far, in reverse. -/
  | items (done : List Json)
  /-- An object whose member `key` is being read; the members before it. -/
  | member (done : List (String × Json)) (key : String)

/-- What may come next, and the open containers, innermost first. -/
inductive State where
  /-- A value is due. -/
  | value (frames : List Frame)
  /-- A first item is due, or the end of an empty array. -/
  | itemOrClose (frames : List Frame)
  /-- A first name is due, or the end of an empty object. -/
  | nameOrClose (frames : List Frame)
  /-- A further name is due. -/
  | name (done : List (String × Json)) (frames : List Frame)
  /-- The colon behind a name is due. -/
  | colon (done : List (String × Json)) (key : String) (frames : List Frame)
  /-- A value is complete. -/
  | complete (value : Json) (frames : List Frame)

namespace State

/-- The state behind the first token of a value. -/
def begin (frames : List Frame) : Token → Except ParseError State
  | .openArray => .ok (.itemOrClose frames)
  | .openObject => .ok (.nameOrClose frames)
  | .str s => .ok (.complete (.str s) frames)
  | .scalar v => .ok (.complete v frames)
  | .numeralTooLong digits => .error (.numeralTooLong digits)
  | _ => .error .malformed

/-- One token further. -/
def next : State → Token → Except ParseError State
  | .value fs, t => begin fs t
  | .itemOrClose fs, .closeArray => .ok (.complete (.arr []) fs)
  -- Any other token must begin the first item.
  | .itemOrClose fs, t => begin (.items [] :: fs) t
  | .nameOrClose fs, .closeObject => .ok (.complete (.obj []) fs)
  | .nameOrClose fs, .str k => .ok (.colon [] k fs)
  | .name ms fs, .str k => .ok (.colon ms k fs)
  | .colon ms k fs, .colon => .ok (.value (.member ms k :: fs))
  -- What may follow a complete value depends on the container around it.
  | .complete v (.items vs :: fs), .comma => .ok (.value (.items (v :: vs) :: fs))
  | .complete v (.items vs :: fs), .closeArray =>
      .ok (.complete (.arr (v :: vs).reverse) fs)
  | .complete v (.member ms k :: fs), .comma => .ok (.name (setMember k v ms) fs)
  | .complete v (.member ms k :: fs), .closeObject =>
      .ok (.complete (.obj (setMember k v ms)) fs)
  | _, _ => .error .malformed

/-- The value, if one is complete and no container is open. -/
def result : State → Except ParseError Json
  | .complete v [] => .ok v
  | _ => .error .malformed

end State

/-- The value that a sequence of tokens writes. -/
def ofTokens (tokens : List Token) : Except ParseError Json := do
  (← tokens.foldlM State.next (.value [])).result

/-- The value that a text writes. -/
def parse (text : String) : Except ParseError Json := ofTokens (scan .between text.toList)

end FiniteAutomata.Json
