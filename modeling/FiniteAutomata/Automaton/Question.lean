/-
  FiniteAutomata.Automaton.Question
  ─────────────────────────────────
  Questions about an automaton that take an analysis to answer.

  A question is answered by analysing the automaton, or from memory where the
  analysis is remembered.
-/
import FiniteAutomata.Automaton.Analysed

namespace FiniteAutomata

/-- A question about an automaton that takes an analysis to answer. -/
inductive Question where
  | reachableStates
  | generatingStates
  | isDeterministic
  | minimalAlphabet
  | effectiveAlphabet
  | isTrimmed
  | isReachable (state : StateRef)
  | isGenerating (state : StateRef)
  | accepts (word : List Char)

/-- The answer to a question. -/
inductive Answer where
  | states (states : StateSet)
  | symbols (symbols : SymbolSet)
  | truth (truth : Bool)
  deriving DecidableEq

/-- Answer a question about an automaton. -/
def Automaton.answer (a : Automaton) : Question → Answer
  | .reachableStates => .states a.reachableStates
  | .generatingStates => .states a.generatingStates
  | .isDeterministic => .truth a.isDeterministic
  | .minimalAlphabet => .symbols a.minimalAlphabet
  | .effectiveAlphabet => .symbols a.effectiveAlphabet
  | .isTrimmed => .truth a.isTrimmed
  | .isReachable s => .truth (a.namesStateIn s a.reachableStates)
  | .isGenerating s => .truth (a.namesStateIn s a.generatingStates)
  | .accepts word => .truth (a.accepts word)

/-- Answer a question about an automaton from memory where possible. -/
def Analysed.answer (x : Analysed) : Question → Answer × Analysed
  | .reachableStates => x.reachableStates.map .states id
  | .generatingStates => x.generatingStates.map .states id
  | .isDeterministic => x.isDeterministic.map .truth id
  | .minimalAlphabet => x.minimalAlphabet.map .symbols id
  | .effectiveAlphabet => x.effectiveAlphabet.map .symbols id
  | .isTrimmed => x.isTrimmed.map .truth id
  | .isReachable s =>
      x.reachableStates.map (fun set => .truth (x.automaton.namesStateIn s set)) id
  | .isGenerating s =>
      x.generatingStates.map (fun set => .truth (x.automaton.namesStateIn s set)) id
  | .accepts word => (x.accepts word).map .truth id

end FiniteAutomata
