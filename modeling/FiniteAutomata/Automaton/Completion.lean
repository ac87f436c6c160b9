/-
  FiniteAutomata.Automaton.Completion
  ───────────────────────────────────
  A transition on every symbol of the alphabet from every state.

  What a state lacks is routed to a sink: the lowest state that is not
  generating, or a new state that loops on the whole alphabet if every state is
  generating.
-/
import FiniteAutomata.Automaton.Changes
import FiniteAutomata.IdSupply

namespace FiniteAutomata.Automaton

/-- The symbols of the alphabet on no edge that leaves a state. -/
def lackingAt (a : Automaton) (alphabet : SymbolSet) (s : StateId) : SymbolSet :=
  alphabet \ SymbolSet.unionAll (a.table.row s).values

/-- The states that lack symbols, with the symbols that they lack. -/
def lacking (a : Automaton) (alphabet : SymbolSet) : List (StateId × SymbolSet) :=
  a.states.toList.filterMap fun s =>
    let symbols := a.lackingAt alphabet s
    if symbols.isEmpty then none else some (s, symbols)

/-- The lowest state that is not generating. -/
def existingSink? (a : Automaton) (generating : StateSet) : Option StateId :=
  (a.states \ generating).min?

/-- Further symbols on an edge. -/
def route (a : Automaton) (origin sink : StateId) (symbols : SymbolSet) : Automaton :=
  (a.relabel? origin sink ((a.table.label? origin sink).getD ∅ ∪ symbols)).getD a

/-- Further symbols on the edges from several states to a sink. -/
def routeAll (a : Automaton) (sink : StateId) (missing : List (StateId × SymbolSet)) :
    Automaton :=
  missing.foldl (fun a (s, symbols) => a.route s sink symbols) a

/-- Complete towards a sink that is already there, or towards a new state. -/
def completeTowards (a : Automaton) (alphabet : SymbolSet) (sink : Option StateId)
    (missing : List (StateId × SymbolSet)) (supply : IdSupply) : Automaton × IdSupply :=
  match sink with
  | some sink => (a.routeAll sink missing, supply)
  | none =>
      -- The new state lacks the whole alphabet itself, so it is routed last.
      let (sink, supply) := supply.allocate
      ((a.addState sink rejectStateName).routeAll sink (missing ++ [(sink, alphabet)]),
        supply)

/-- Give every state a transition on every symbol of the alphabet; `none` if no
state lacks any.  An id is taken from the supply only for a new sink. -/
def complete? (a : Automaton) (supply : IdSupply) : Option Automaton × IdSupply :=
  let alphabet := a.effectiveAlphabet
  match a.lacking alphabet with
  -- Nothing is lacking if the alphabet is empty or there are no states.
  | [] => (none, supply)
  | missing =>
      let (completed, supply) :=
        a.completeTowards alphabet (a.existingSink? a.generatingStates) missing supply
      (some completed, supply)

/-- The automaton with a transition on every symbol of the alphabet from every
state, and the ids that are left. -/
def complete (a : Automaton) (supply : IdSupply) : Automaton × IdSupply :=
  let (completed, supply) := a.complete? supply
  (completed.getD a, supply)

end FiniteAutomata.Automaton
