/-
  FiniteAutomata.Automaton.Basic
  ──────────────────────────────
  **Nondeterministic finite automata as values.**

  An automaton has states with names, a start state or none, accepting states,
  a transition table and perhaps an explicit alphabet.  The set of states, the
  names and the table are kept side by side, and `WellFormed` says that they are
  about the same states.  Ids given by callers may be wrong: a reference that
  names no state of the automaton is accepted everywhere and finds nothing.
-/
import FiniteAutomata.Graph.Analyses
import FiniteAutomata.Json.Basic

namespace FiniteAutomata

/-- The name of a state whose name is not given. -/
def defaultStateName : Json := .str "New state"

/-- The name of the state that completion adds. -/
def rejectStateName : Json := .str "Reject"

/-- A reference to a state as a caller gives it: an id or some other value,
which names no state. -/
inductive StateRef where
  | id (id : StateId)
  | foreign
  deriving DecidableEq, Repr

/-- A nondeterministic finite automaton.  The name of a state may be any value. -/
structure Automaton where
  start : Option StateId
  states : StateSet
  names : OrderedMap StateId Json
  accept : StateSet
  table : Table
  alphabet : Option SymbolSet
  deriving DecidableEq

namespace Automaton

/-- The automaton without states. -/
def empty : Automaton := ⟨none, ∅, ∅, ∅, ∅, none⟩

instance : Inhabited Automaton := ⟨empty⟩

/-! ## §1. States. -/

/-- The state that a reference names. -/
def resolve? (a : Automaton) (r : StateRef) : Option StateId :=
  match r with
  | .id id => if id ∈ a.states then some id else none
  | .foreign => none

/-- Whether a reference names a state of a set. -/
def namesStateIn (a : Automaton) (r : StateRef) (set : StateSet) : Bool :=
  match a.resolve? r with
  | some s => s ∈ set
  | none => false

/-- Whether a reference names an accepting state. -/
def isAccept (a : Automaton) (r : StateRef) : Bool := a.namesStateIn r a.accept

/-- Whether a reference names the start state. -/
def isStart (a : Automaton) (r : StateRef) : Bool :=
  match a.resolve? r with
  | some s => a.start = some s
  | none => false

/-- The name of a state; the empty text if the reference names none. -/
def name (a : Automaton) (r : StateRef) : Json :=
  match a.resolve? r with
  | some s => a.names.getD s (.str "")
  | none => .str ""

/-! ## §2. Edges. -/

/-- The edges that leave a state. -/
def edgesFrom (a : Automaton) (origin : StateRef) : Row :=
  match a.resolve? origin with
  | some o => a.table.row o
  | none => ∅

/-- The symbols on an edge, if there is one. -/
def label? (a : Automaton) (origin target : StateRef) : Option SymbolSet :=
  match a.resolve? origin, a.resolve? target with
  | some o, some t => a.table.label? o t
  | _, _ => none

/-- The symbols on an edge; nothing if there is none. -/
def symbols (a : Automaton) (origin target : StateRef) : SymbolSet :=
  (a.label? origin target).getD ∅

/-- Whether there is an edge, and whether it has a symbol if one is given. -/
def hasEdge (a : Automaton) (origin target : StateRef) (symbol : Option String) :
    Bool :=
  match a.label? origin target, symbol with
  | some _, none => true
  | some s, some text => s.hasText text
  | none, _ => false

/-! ## §3. Analyses. -/

/-- The states that edges lead to from the start. -/
def reachableStates (a : Automaton) : StateSet := a.table.reachable a.start

theorem mem_reachableStates {a : Automaton} {s : StateId} :
    s ∈ a.reachableStates ↔ ∃ p, a.start = some p ∧ Linked a.table.edges p s :=
  Table.mem_reachable

/-- The states from which edges lead to an accepting state. -/
def generatingStates (a : Automaton) : StateSet := a.table.generating a.accept

theorem mem_generatingStates {a : Automaton} {s : StateId} :
    s ∈ a.generatingStates ↔ ∃ f ∈ a.accept, Linked a.table.edges s f :=
  Table.mem_generating

/-- Whether the table is deterministic. -/
def isDeterministic (a : Automaton) : Bool := a.table.isDeterministic

/-- The characters on the edges. -/
def minimalAlphabet (a : Automaton) : SymbolSet := a.table.minimalAlphabet

/-- The explicit alphabet, or the minimal one if there is none. -/
def effectiveAlphabet (a : Automaton) : SymbolSet :=
  a.alphabet.getD a.minimalAlphabet

/-- Whether all states are among the reachable ones, and all but the start among
the generating ones. -/
def isTrimmedFor (a : Automaton) (reachable generating : StateSet) : Bool :=
  reachable = a.states &&
    a.states.toList.all fun s => a.start = some s || s ∈ generating

/-- Whether every state is reachable, and every state but the start generating. -/
def isTrimmed (a : Automaton) : Bool :=
  a.isTrimmedFor a.reachableStates a.generatingStates

/-! ## §4. Display. -/

/-- The ids of a set between brackets. -/
def idList (s : StateSet) : String :=
  "[" ++ ", ".intercalate (s.toList.map toString) ++ "]"

/-- The automaton as a message shows it. -/
def describe (a : Automaton) : String :=
  "Automaton(states=" ++ idList a.states ++ ", start=" ++ toString (a.start.getD 0)
    ++ ", accept=" ++ idList a.accept ++ ")"

/-! ## §5. Well-formedness. -/

/-- What every automaton built by this library satisfies: positive ids, start
and accepting states among the states, a name and a row for each state and for
nothing else, edges that lead to states and match something, and an explicit
alphabet without the empty symbol. -/
structure WellFormed (a : Automaton) : Prop where
  positive : ∀ s ∈ a.states, 0 < s
  start_mem : ∀ s, a.start = some s → s ∈ a.states
  accept_subset : ∀ s ∈ a.accept, s ∈ a.states
  keys_names : a.names.keys = a.states
  keys_table : a.table.keys = a.states
  target_mem : ∀ o t g, a.table.label? o t = some g → t ∈ a.states
  label_nonempty : ∀ o t g, a.table.label? o t = some g → g ≠ ∅
  alphabet_chars : ∀ g, a.alphabet = some g → Symbol.empty ∉ g

theorem wellFormed_empty : empty.WellFormed where
  positive _ h := absurd h (OrderedSet.not_mem_empty _)
  start_mem _ h := by cases h
  accept_subset _ h := absurd h (OrderedSet.not_mem_empty _)
  keys_names := rfl
  keys_table := rfl
  target_mem _ _ _ h := by cases h
  label_nonempty _ _ _ h := by cases h
  alphabet_chars _ h := by cases h

theorem resolve?_eq_some_iff {a : Automaton} {r : StateRef} {s : StateId} :
    a.resolve? r = some s ↔ r = .id s ∧ s ∈ a.states := by
  cases r with
  | id id =>
      simp only [resolve?, StateRef.id.injEq]
      split
      · next h =>
        constructor
        · intro e
          cases e
          exact ⟨rfl, h⟩
        · rintro ⟨rfl, _⟩
          rfl
      · next h =>
        refine iff_of_false (by simp) ?_
        rintro ⟨rfl, h'⟩
        exact h h'
  | foreign => simp [resolve?]

end Automaton

end FiniteAutomata
