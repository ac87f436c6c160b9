/-
  FiniteAutomata.Automaton.Parts
  ──────────────────────────────
  **Automata from parts that a caller gives.**

  Parts name states by arbitrary values.  `Automaton.ofParts` checks them: state
  ids must be positive integers, and everything else must refer to states.  The
  checks go from the ids over start and accepting states to transitions and the
  alphabet, and the first that fails is reported.
-/
import FiniteAutomata.Automaton.Changes
import FiniteAutomata.IdSupply
import FiniteAutomata.Json.Literal

namespace FiniteAutomata

/-- The parts of an automaton, not yet checked. -/
structure Parts where
  names : List (Json × Json)
  transitions : List (Json × List (Json × Label))
  start : Json
  accept : List Json
  alphabet : Option Label

/-- The reasons for which parts are refused. -/
inductive PartsError where
  /-- An array or object stands for a state. -/
  | notAKey
  | idNotPositive (id : Json)
  | startUnknown (id : Json)
  | acceptUnknown (ids : List Json)
  /-- Unknown accepting states are of kinds that no order puts in a row. -/
  | acceptUnordered
  | originUnknown (id : Json)
  | targetUnknown (id : Json)
  | symbol (error : SymbolError)

/-- The wording of a refusal. -/
def PartsError.message : PartsError → String
  | .notAKey => "arrays and objects cannot name states"
  | .idNotPositive id => "state ids must be positive integers, got " ++ id.literal
  | .startUnknown id => "start state " ++ id.bare ++ " is not a state"
  | .acceptUnknown ids =>
      "accept states " ++ (Json.arr ids).literal ++ " are not states"
  | .acceptUnordered => "accept states of different kinds are not states"
  | .originUnknown id => "transition origin " ++ id.bare ++ " is not a state"
  | .targetUnknown id => "transition target " ++ id.bare ++ " is not a state"
  | .symbol e => e.message

namespace Parts

/-! ## §1. States. -/

/-- Every value that stands for a state in the names and the transitions. -/
def keysGiven (p : Parts) : List Json :=
  p.names.map (·.1) ++ p.transitions.flatMap fun (o, edges) => o :: edges.map (·.1)

/-- The states: the values that names are given for, as ids. -/
def readStates : List Json → Except PartsError StateSet
  | [] => .ok ∅
  | id :: rest =>
      match id.asInt? with
      | some n =>
          if n ≤ 0 then .error (.idNotPositive id)
          else (readStates rest).map (OrderedSet.insert n)
      | none => .error (.idNotPositive id)

/-- The name given for a state; the empty text if there is none. -/
def nameOf (s : StateId) : List (Json × Json) → Json
  | [] => .str ""
  | (id, name) :: rest => if id.asInt? = some s then name else nameOf s rest

/-- The state that a value names. -/
def find? (states : StateSet) (id : Json) : Option StateId :=
  id.toInt?.filter (· ∈ states)

/-- The start state; a value that equals zero stands for none. -/
def readStart (states : StateSet) (id : Json) :
    Except PartsError (Option StateId) :=
  if id.toInt? = some 0 then .ok none
  else if !id.isKey then .error .notAKey
  else
    match find? states id with
    | some s => .ok (some s)
    | none => .error (.startUnknown id)

/-- The accepting states. -/
def readAccept (states : StateSet) (ids : List Json) : Except PartsError StateSet :=
  if !ids.all Json.isKey then .error .notAKey
  else
    match ids.filter fun id => (find? states id).isNone with
    | [] => .ok (OrderedSet.ofList (ids.filterMap (find? states)))
    | unknown =>
        -- All unknown ids are reported, each once and in ascending order.
        match Json.sorted? (unknown.eraseDupsBy Json.alike) with
        | some ids => .error (.acceptUnknown ids)
        | none => .error .acceptUnordered

/-! ## §2. Edges. -/

/-- The row with further edges; an edge that would match nothing is left out. -/
def readRow (states : StateSet) (r : Row) : List (Json × Label) → Except PartsError Row
  | [] => .ok r
  | (id, label) :: rest =>
      match find? states id with
      | none => .error (.targetUnknown id)
      | some t => do
          let symbols ← label.read.mapError .symbol
          readRow states (if symbols.isEmpty then r else r.insert t symbols) rest

/-- The table with further rows. -/
def readTable (states : StateSet) (t : Table) :
    List (Json × List (Json × Label)) → Except PartsError Table
  | [] => .ok t
  | (id, edges) :: rest =>
      match find? states id with
      | none => .error (.originUnknown id)
      | some o => do
          let r ← readRow states (t.row o) edges
          readTable states (t.insert o r) rest

end Parts

/-- The automaton with the given parts. -/
def Automaton.ofParts (p : Parts) : Except PartsError Automaton := do
  -- Ids must be able to stand as keys before anything is looked up by them.
  if !p.keysGiven.all Json.isKey then throw .notAKey
  let states ← Parts.readStates (p.names.map (·.1))
  let start ← Parts.readStart states p.start
  let accept ← Parts.readAccept states p.accept
  let table ← Parts.readTable states (.tabulate states fun _ => ∅) p.transitions
  let alphabet ← (Automaton.readAlphabet p.alphabet).mapError .symbol
  -- Only now are the names looked up, one for each state.
  let names := .tabulate states fun s => Parts.nameOf s p.names
  return { start, states, names, accept, table, alphabet }

/-- The supply of a new lineage: the ids beyond those of the automaton. -/
def Automaton.freshSupply (a : Automaton) : IdSupply := IdSupply.beyond a.states

end FiniteAutomata
