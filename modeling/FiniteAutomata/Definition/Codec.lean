/-
  FiniteAutomata.Definition.Codec
  ───────────────────────────────
  **Automata to definitions and back.**

  `Automaton.toDefinition` numbers the states, the start first and the others by
  id, and writes symbols in their canonical text.  `Automaton.ofDefinition` gives
  the state at each index the id one greater, and merges transitions between the
  same states.

  Index zero is read as the start.  So an automaton with states but no start is
  written with a further state at index zero, which neither accepts nor has
  transitions, and the automaton read back accepts nothing either.

  A file holds a definition as indented JSON text.
-/
import FiniteAutomata.Automaton.Parts
import FiniteAutomata.Definition.Fields
import FiniteAutomata.Json.Parser
import FiniteAutomata.Json.Printer
import FiniteAutomata.SymbolSet.Printer

namespace FiniteAutomata

namespace Automaton

/-! ## §1. Writing. -/

/-- The states by index; `none` is the further state that stands in for a
missing start. -/
def indexOrder (a : Automaton) : List (Option StateId) :=
  match a.start with
  | some s => some s :: (a.states.erase s).toList.map some
  | none =>
      -- Without any state there is nothing to stand in for.
      match a.states.toList with
      | [] => []
      | states => none :: states.map some

/-- The index of a state. -/
def indexOf (a : Automaton) (s : StateId) : Nat := a.indexOrder.idxOf (some s)

/-- The transitions from a state of a definition. -/
def definitionRow (a : Automaton) : Option StateId → List Transition
  | some s => (a.table.row s).entries.map fun (t, symbols) => (a.indexOf t, symbols.text)
  | none => []

/-- The name of a state of a definition. -/
def definitionName (a : Automaton) : Option StateId → Json
  | some s => a.name (.id s)
  | none => defaultStateName

/-- The definition of an automaton. -/
def toDefinition (a : Automaton) : Definition where
  count := a.indexOrder.length
  names := a.indexOrder.map a.definitionName
  accept := (a.accept.toList.map a.indexOf).mergeSort
  transitions := a.indexOrder.map a.definitionRow
  alphabet := a.alphabet.map SymbolSet.text

/-! ## §2. Reading. -/

/-- The id of the state at an index. -/
def idAt (index : Nat) : StateId := index + 1

/-- The row with further transitions read from text; transitions to one target
are merged. -/
def readTransitions (r : Row) : List Transition → Except SymbolError Row
  | [] => .ok r
  | (target, text) :: rest => do
      let symbols ← SymbolSet.read text
      readTransitions (r.insert (idAt target) (r.getD (idAt target) ∅ ∪ symbols)) rest

/-- The parts that a definition describes. -/
def partsOf (d : Definition) : Except SymbolError Parts := do
  let indices := List.range d.count
  let rows ← indices.mapM fun i => readTransitions ∅ (d.row i)
  return {
    names := indices.map fun i => (.int (idAt i), d.name i)
    transitions := indices.zip rows |>.map fun (i, r) =>
      (.int (idAt i), r.entries.map fun (t, symbols) => (.int t, .symbols symbols))
    start := .int (if d.count = 0 then 0 else 1)
    accept := d.accept.map fun i => .int (idAt i)
    alphabet := d.alphabet.map .text }

/-- The automaton of a definition. -/
def ofDefinition (d : Definition) : Except PartsError Automaton := do
  ofParts (← (partsOf d).mapError .symbol)

end Automaton

/-! ## §3. Documents. -/

/-- The reasons for which a document gives no automaton. -/
inductive LoadError where
  /-- There is no file. -/
  | missingFile (path : String)
  /-- The file is not JSON that can be read. -/
  | json (error : Json.ParseError)
  | definition (error : DefinitionError)
  | parts (error : PartsError)

/-- The wording of a refusal. -/
def LoadError.message : LoadError → String
  | .missingFile path => "Definition file not found: " ++ path
  | .json e => e.message
  | .definition e => e.message
  | .parts e => e.message

/-- The automaton of a definition document. -/
def Automaton.ofDocument (v : Json) : Except LoadError Automaton := do
  let d ← (Definition.ofJson v).mapError .definition
  (Automaton.ofDefinition d).mapError .parts

/-! ## §4. Files. -/

namespace Automaton

/-- The text of the file of an automaton. -/
def fileText (a : Automaton) : String := a.toDefinition.toJson.pretty

/-- The automaton of a file with a given text. -/
def ofFileText (text : String) : Except LoadError Automaton := do
  ofDocument (← (Json.parse text).mapError .json)

/-- The automaton of the file at a path, given what stands there. -/
def ofFile (path : String) (content : Option String) : Except LoadError Automaton :=
  match content with
  | some text => ofFileText text
  | none => .error (.missingFile path)

end Automaton

end FiniteAutomata
