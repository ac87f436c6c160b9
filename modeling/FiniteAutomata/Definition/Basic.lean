/-
  FiniteAutomata.Definition.Basic
  ───────────────────────────────
  **Definitions: automata in a flat form with indices.**

  A definition counts its states and speaks of them by index.  Index zero is the
  start state.  Names and rows of transitions may stop short of the count: what
  is missing at the end is a state with the default name and no transitions.
-/
import FiniteAutomata.Automaton.Basic

namespace FiniteAutomata

/-- A transition of a definition: the index of its target and the text of its
symbols. -/
abbrev Transition := Nat × String

/-- A flat form of an automaton. -/
structure Definition where
  count : Nat
  names : List Json
  accept : List Nat
  transitions : List (List Transition)
  alphabet : Option String
  deriving DecidableEq

/-- The reasons for which nothing stands at an index. -/
inductive EntryError where
  /-- The index lies before the beginning. -/
  | beforeBeginning
  /-- The entries stand under names and not at indices. -/
  | namedEntries
  deriving DecidableEq, Repr

/-- What stands at an index of a list.  Beyond the end stands the default; a
negative index counts from the end, and before the beginning stands nothing. -/
def entryAt {α : Type} (l : List α) (default : α) (index : Int) : Except EntryError α :=
  match index with
  | .ofNat i => .ok (l.getD i default)
  | .negSucc i =>
      if i < l.length then .ok (l.getD (l.length - 1 - i) default)
      else .error .beforeBeginning

namespace Definition

/-- The name at an index. -/
def name (d : Definition) (index : Nat) : Json := d.names.getD index defaultStateName

/-- The transitions from an index. -/
def row (d : Definition) (index : Nat) : List Transition := d.transitions.getD index []

/-- A transition as a document writes it. -/
def transitionJson : Transition → Json
  | (target, symbols) => .arr [.int target, .str symbols]

/-- The rows of transitions as a document writes them. -/
def rowsJson (rows : List (List Transition)) : Json :=
  .arr (rows.map fun r => .arr (r.map transitionJson))

/-- The document of a definition.  Without an alphabet it has no such member. -/
def toJson (d : Definition) : Json :=
  .obj ([("n", .int d.count),
    ("names", .arr d.names),
    ("accept", .arr (d.accept.map fun (i : Nat) => .int i)),
    ("transitions", rowsJson d.transitions)]
    ++ match d.alphabet with
      | some text => [("alphabet", .str text)]
      | none => [])

end Definition

end FiniteAutomata
