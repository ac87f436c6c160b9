/-
  FiniteAutomata.Automaton.Edit
  ─────────────────────────────
  **Edits as data.**

  An edit is one change with its arguments, so that changes can be recorded and
  replayed; a command is an edit or some other value, which is refused.
  `Automaton.edit` performs an edit on an automaton by itself, without any
  memory of earlier analyses.
-/
import FiniteAutomata.Automaton.Completion
import FiniteAutomata.Json.Literal

namespace FiniteAutomata

/-- One change of an automaton. -/
inductive Edit where
  | addState (name : Json)
  | removeState (state : StateRef)
  | setTransition (origin target : StateRef) (label : Label)
  | setTransitionTarget (origin old new : StateRef)
  | removeTransition (origin target : StateRef)
  | setStart (state : StateRef)
  | setAccept (state : StateRef) (accept : Bool)
  | toggleAccept (state : StateRef)
  | setName (state : StateRef) (name : Json)
  | setAlphabet (alphabet : Option Label)
  | unsetAlphabet
  | trim
  | complete

/-- What is handed in to be performed: an edit or another value. -/
inductive Command where
  | edit (edit : Edit)
  | other (value : Json)

/-- The reasons for which a command fails. -/
inductive EditError where
  | symbol (error : SymbolError)
  | notACommand (value : Json)

/-- The wording of a failure. -/
def EditError.message : EditError → String
  | .symbol e => e.message
  | .notACommand v => "not an automaton command: " ++ v.literal

/-- What an edit does: the changed automaton, or `none` if nothing changes; the
id of a new state if the edit adds one; and the ids that are left. -/
structure Edited where
  automaton : Option Automaton
  added : Option StateId
  supply : IdSupply

namespace Automaton

/-- Perform an edit. -/
def edit (a : Automaton) (supply : IdSupply) (e : Edit) : Except EditError Edited :=
  let plain (result : Option Automaton) : Except EditError Edited :=
    .ok ⟨result, none, supply⟩
  match e with
  | .addState name =>
      let (s, supply) := supply.allocate
      .ok ⟨some (a.addState s name), some s, supply⟩
  | .removeState s => plain (a.removeState? s)
  | .setTransition o t label =>
      (a.setTransition? o t label).mapError .symbol >>= plain
  | .setTransitionTarget o x y => plain (a.setTransitionTarget? o x y)
  | .removeTransition o t => plain (a.removeTransition? o t)
  | .setStart s => plain (a.setStart? s)
  | .setAccept s accept => plain (a.setAccept? s accept)
  | .toggleAccept s => plain (a.toggleAccept? s)
  | .setName s name => plain (a.setName? s name)
  | .setAlphabet alphabet => (a.setAlphabet? alphabet).mapError .symbol >>= plain
  | .unsetAlphabet => plain a.unsetAlphabet?
  | .trim => plain a.trim?
  | .complete =>
      let (result, supply) := a.complete? supply
      .ok ⟨result, none, supply⟩

end Automaton

end FiniteAutomata
