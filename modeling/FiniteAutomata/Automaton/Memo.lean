/-
  FiniteAutomata.Automaton.Memo
  ─────────────────────────────
  **Memory of analyses, and what of it survives a change.**

  A memo holds the results of the analyses that have been made of an automaton.
  A change leaves some of them true of the changed automaton:

      afterRemoval   edges went: a deterministic table stays deterministic
      afterMove      an edge moved, its symbols kept: the symbols in use as well
      afterNewEdge   an edge came: a table that is not deterministic stays so
      afterRelabel   an edge has other symbols: what leads where
      afterStart     another start: all but the reachable states
      afterAccept    other accepting states: all but the generating states

  Other changes of states, names and the alphabet leave everything true.
-/
import FiniteAutomata.Automaton.Edit

namespace FiniteAutomata

/-- Results of analyses, as far as they are known. -/
structure Memo where
  reachable : Option StateSet
  generating : Option StateSet
  deterministic : Option Bool
  minimalAlphabet : Option SymbolSet
  deriving DecidableEq

namespace Memo

/-- The memo that knows nothing. -/
def blank : Memo := ⟨none, none, none, none⟩

instance : Inhabited Memo := ⟨blank⟩

/-- A memo is sound for an automaton if everything it holds is what the analysis
of the automaton gives. -/
structure Sound (m : Memo) (a : Automaton) : Prop where
  reachable : ∀ s, m.reachable = some s → s = a.reachableStates
  generating : ∀ s, m.generating = some s → s = a.generatingStates
  deterministic : ∀ b, m.deterministic = some b → b = a.isDeterministic
  minimalAlphabet : ∀ s, m.minimalAlphabet = some s → s = a.minimalAlphabet

theorem sound_blank (a : Automaton) : blank.Sound a := by
  constructor <;> intro _ h <;> cases h

/-! ## §1. What survives. -/

/-- What survives the removal of edges. -/
def afterRemoval (m : Memo) : Memo :=
  -- Only the answer "deterministic" stays true.
  { blank with deterministic := m.deterministic.filter id }

/-- What survives the move of an edge. -/
def afterMove (m : Memo) : Memo :=
  { m.afterRemoval with minimalAlphabet := m.minimalAlphabet }

/-- What survives a new edge. -/
def afterNewEdge (m : Memo) : Memo :=
  -- Only the answer "not deterministic" stays true.
  { blank with deterministic := m.deterministic.filter (!·) }

/-- What survives the replacement of the symbols on an edge. -/
def afterRelabel (m : Memo) : Memo :=
  { blank with reachable := m.reachable, generating := m.generating }

/-- What survives a change of one edge, given its symbols before and after. -/
def afterEdge (m : Memo) (before after : Option SymbolSet) : Memo :=
  match before, after with
  | none, _ => m.afterNewEdge
  | some _, some _ => m.afterRelabel
  | some _, none => m.afterRemoval

/-- What survives a change of the start. -/
def afterStart (m : Memo) : Memo := { m with reachable := none }

/-- What survives a change of the accepting states. -/
def afterAccept (m : Memo) : Memo := { m with generating := none }

end Memo

end FiniteAutomata
