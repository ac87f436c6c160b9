/-
  FiniteAutomata.Definition.Fields
  ────────────────────────────────
  **Definitions from documents.**

  The fields of a definition come as arbitrary values.  `Fields.check` holds the
  rules that any definition obeys, in the order in which they are tried.  There
  are two ways to fields: by name, where nothing is converted, and from a
  document (`Definition.ofJson`), where the count and the accepting indices are
  converted to integers and names and rows to lists.
-/
import FiniteAutomata.Definition.Basic
import FiniteAutomata.Json.Literal
import FiniteAutomata.Json.Number

namespace FiniteAutomata

/-- The reasons for which a definition is refused. -/
inductive DefinitionError where
  | missingCount
  /-- A value is of a kind that its place does not take. -/
  | illTyped
  /-- A value cannot be converted to an integer. -/
  | integer (error : Json.IntegerError)
  | negativeCount
  | tooManyNames
  | tooManyRows
  | acceptOutOfRange (index : Json)
  | notAPair (origin : Nat)
  | targetOutOfRange (target : Json) (origin : Nat)
  | symbolsNotText (origin : Nat)
  | alphabetNotText

/-- The wording of a refusal. -/
def DefinitionError.message : DefinitionError → String
  | .missingCount => "definition is missing 'n'"
  | .illTyped | .integer .illTyped => "a value of another kind is due"
  | .integer (.numeral .malformed) => "the text writes no integer"
  | .integer (.numeral (.tooLong digits)) => Text.tooLongMessage digits
  | .integer .infinite => "cannot convert float infinity to integer"
  | .integer .indefinite => "cannot convert float NaN to integer"
  | .negativeCount => "n must be >= 0"
  | .tooManyNames => "names must not outnumber states (n)"
  | .tooManyRows => "transitions must not outnumber states (n)"
  | .acceptOutOfRange index => "accept index " ++ index.bare ++ " out of range"
  | .notAPair origin =>
      s!"transition from {origin} must be a (target, symbols) pair"
  | .targetOutOfRange target origin =>
      "transition target " ++ target.bare ++ s!" from {origin} out of range"
  | .symbolsNotText origin => s!"transition symbols from {origin} must be a string"
  | .alphabetNotText => "alphabet must be a string or None"

namespace Definition

/-- The fields of a definition, not yet checked. -/
structure Fields where
  count : Json
  names : Json
  accept : Json
  transitions : Json
  alphabet : Json

/-! ## §1. The rules. -/

/-- The answer of a comparison, which only numbers have. -/
def compared (answer : Option Bool) : Except DefinitionError Bool :=
  match answer with
  | some b => .ok b
  | none => .error .illTyped

/-- The elements of a value, which only some values have. -/
def elementsOf (v : Json) : Except DefinitionError (List Json) :=
  match v.elements? with
  | some l => .ok l
  | none => .error .illTyped

/-- Whether a value is an index below the count. -/
def isIndex (count index : Json) : Except DefinitionError Bool := do
  -- The second comparison is made only if the first holds.
  if ← compared (Json.atMost? (.int 0) index) then compared (index.less? count)
  else return false

/-- A transition from `origin`. -/
def checkTransition (count : Json) (origin : Nat) (v : Json) :
    Except DefinitionError Transition := do
  match ← elementsOf v with
  | [target, symbols] =>
      -- The target is compared as it was given and converted only afterwards.
      if !(← isIndex count target) then throw (.targetOutOfRange target origin)
      match symbols with
      | .str text =>
          let index ← target.toInteger.mapError .integer
          return (index.toNat, text)
      | _ => throw (.symbolsNotText origin)
  | _ => throw (.notAPair origin)

/-- The transitions from `origin`, one after the other. -/
def checkRow (count : Json) (origin : Nat) (v : Json) :
    Except DefinitionError (List Transition) := do
  (← elementsOf v).mapM (checkTransition count origin)

/-- The rows from `origin` on. -/
def checkRows (count : Json) : Nat → List Json →
    Except DefinitionError (List (List Transition))
  | _, [] => .ok []
  | origin, v :: rest => do
      let r ← checkRow count origin v
      let rs ← checkRows count (origin + 1) rest
      return r :: rs

/-- Accepting indices must lie below the count. -/
def checkAccept (count : Json) : List Json → Except DefinitionError Unit
  | [] => .ok ()
  | index :: rest => do
      if !(← isIndex count index) then throw (.acceptOutOfRange index)
      checkAccept count rest

/-- The rules of a definition; the answer is its rows. -/
def Fields.check (f : Fields) : Except DefinitionError (List (List Transition)) := do
  -- The order of the checks decides which of several faults is reported.
  if ← compared (f.count.less? (.int 0)) then throw .negativeCount
  let names ← elementsOf f.names
  if ← compared (f.count.less? (.int names.length)) then throw .tooManyNames
  let rows ← elementsOf f.transitions
  if ← compared (f.count.less? (.int rows.length)) then throw .tooManyRows
  checkAccept f.count (← elementsOf f.accept)
  let rows ← checkRows f.count 0 rows
  match f.alphabet with
  | .null | .str _ => return rows
  | _ => throw .alphabetNotText

/-! ## §2. Fields by name. -/

/-- The names of the fields. -/
def fieldNames : List String := ["n", "names", "accept", "transitions", "alphabet"]

/-- The fields that an object gives by name.  The count must be among them, and
nothing else than fields. -/
def Fields.ofArguments (v : Json) : Except DefinitionError Fields :=
  match v with
  | .obj members =>
      if !members.all fun (k, _) => k ∈ fieldNames then .error .illTyped
      else
        match v.get? "n" with
        | none => .error .illTyped
        | some count => .ok {
            count
            names := (v.get? "names").getD (.arr [])
            accept := (v.get? "accept").getD (.arr [])
            transitions := (v.get? "transitions").getD (.arr [])
            alphabet := (v.get? "alphabet").getD .null }
  | _ => .error .illTyped

/-- The name at an index.  The members of an object take up indices, but none of
them stands at one. -/
def Fields.nameAt (f : Fields) (index : Int) : Except EntryError Json :=
  match f.names with
  | .obj members =>
      if index < members.length then .error .namedEntries else .ok defaultStateName
  | names => entryAt (names.elements?.getD []) defaultStateName index

/-- The document of fields whose rows have been checked. -/
def Fields.toJson (f : Fields) (rows : List (List Transition)) : Json :=
  .obj ([("n", f.count), ("names", f.names), ("accept", f.accept),
    ("transitions", rowsJson rows)]
    ++ if f.alphabet = .null then [] else [("alphabet", f.alphabet)])

/-! ## §3. Documents. -/

/-- The fields of a document after conversion. -/
structure Draft where
  count : Int
  names : List Json
  accept : List Int
  rows : List (List Json)
  alphabet : Json

/-- Whether a document mentions the count: an object by a member, an array by an
item, a text by its letter. -/
def mentionsCount (v : Json) : Except DefinitionError Bool :=
  match v with
  | .obj members => .ok (members.any fun (k, _) => k = "n")
  | .arr items => .ok (items.any fun i => i = .str "n")
  | .str s => .ok (s.toList.any fun c => c = 'n')
  | _ => .error .illTyped

/-- An integer from a document. -/
def integerOf (v : Json) : Except DefinitionError Int := v.toInteger.mapError .integer

/-- The converted fields of a document, which must be an object. -/
def Draft.ofJson (v : Json) : Except DefinitionError Draft := do
  if !(← mentionsCount v) then throw .missingCount
  match v.get? "n" with
  | none => throw .illTyped
  | some count =>
      -- Values are converted in the order of the fields, before any rule is checked.
      let count ← integerOf count
      let names ← elementsOf ((v.get? "names").getD (.arr []))
      let accept ← elementsOf ((v.get? "accept").getD (.arr []))
      let accept ← accept.mapM integerOf
      let rows ← elementsOf ((v.get? "transitions").getD (.arr []))
      let rows ← rows.mapM elementsOf
      return { count, names, accept, rows, alphabet := (v.get? "alphabet").getD .null }

/-- Converted fields as values. -/
def Draft.fields (d : Draft) : Fields where
  count := .int d.count
  names := .arr d.names
  accept := .arr (d.accept.map .int)
  transitions := .arr (d.rows.map .arr)
  alphabet := d.alphabet

/-- The definition that a document gives. -/
def ofJson (v : Json) : Except DefinitionError Definition := do
  let draft ← Draft.ofJson v
  let transitions ← draft.fields.check
  return {
    count := draft.count.toNat
    names := draft.names
    accept := draft.accept.map Int.toNat
    transitions
    alphabet := draft.alphabet.asText? }

end Definition

end FiniteAutomata
