/-
  FiniteAutomata.Automaton.Analysed
  ─────────────────────────────────
  **Automata that remember their analyses.**

  Reading an analysis answers what is remembered, or makes the analysis and
  remembers it.  Editing answers a changed automaton that remembers what the
  change leaves true; the automaton that is edited may have to be analysed for
  that, and then it remembers the result too.
-/
import FiniteAutomata.Automaton.Memo
import FiniteAutomata.Language

namespace FiniteAutomata

/-- An automaton with what is remembered of it. -/
structure Analysed where
  automaton : Automaton
  memo : Memo
  deriving DecidableEq

namespace Analysed

/-- An automaton of which nothing is remembered. -/
def ofAutomaton (a : Automaton) : Analysed := ⟨a, .blank⟩

instance : Inhabited Analysed := ⟨ofAutomaton Automaton.empty⟩

/-- Everything that is remembered is true. -/
def Sound (x : Analysed) : Prop := x.memo.Sound x.automaton

/-! ## §1. Reading. -/

/-- The reachable states. -/
def reachableStates (x : Analysed) : StateSet × Analysed :=
  match x.memo.reachable with
  | some s => (s, x)
  | none =>
      let s := x.automaton.reachableStates
      (s, { x with memo := { x.memo with reachable := some s } })

/-- The generating states. -/
def generatingStates (x : Analysed) : StateSet × Analysed :=
  match x.memo.generating with
  | some s => (s, x)
  | none =>
      let s := x.automaton.generatingStates
      (s, { x with memo := { x.memo with generating := some s } })

/-- Whether the table is deterministic. -/
def isDeterministic (x : Analysed) : Bool × Analysed :=
  match x.memo.deterministic with
  | some b => (b, x)
  | none =>
      let b := x.automaton.isDeterministic
      (b, { x with memo := { x.memo with deterministic := some b } })

/-- The characters on the edges. -/
def minimalAlphabet (x : Analysed) : SymbolSet × Analysed :=
  match x.memo.minimalAlphabet with
  | some s => (s, x)
  | none =>
      let s := x.automaton.minimalAlphabet
      (s, { x with memo := { x.memo with minimalAlphabet := some s } })

/-- The explicit alphabet, or the minimal one if there is none. -/
def effectiveAlphabet (x : Analysed) : SymbolSet × Analysed :=
  match x.automaton.alphabet with
  | some s => (s, x)
  | none => x.minimalAlphabet

/-- Whether every state is reachable, and every state but the start generating. -/
def isTrimmed (x : Analysed) : Bool × Analysed :=
  let (generating, x) := x.generatingStates
  let (reachable, x) := x.reachableStates
  (x.automaton.isTrimmedFor reachable generating, x)

/-- Whether a word is accepted.  The generating states matter only if the run is
in no accepting state at some point. -/
def accepts (x : Analysed) (word : List Char) : Bool × Analysed :=
  -- A run that is always in an accepting state ends in one.
  if (Run.begin x.automaton).strays x.automaton word then
    let (generating, x) := x.generatingStates
    (x.automaton.acceptsFor generating word, x)
  else (true, x)

/-! ## §2. Edits. -/

/-- A changed automaton, and what is remembered of it. -/
def derive (result : Option Automaton) (memo : Memo) : Option Analysed :=
  result.map fun a => ⟨a, memo⟩

/-- Remove every state that is unreachable or not generating, the start state
excepted; also the automaton itself, with both analyses made. -/
def trim? (x : Analysed) : Option Analysed × Analysed :=
  let (reachable, x) := x.reachableStates
  let (generating, x) := x.generatingStates
  (derive (x.automaton.trimFor? reachable generating) x.memo.afterRemoval, x)

/-- Further symbols on an edge. -/
def route (x : Analysed) (origin sink : StateId) (symbols : SymbolSet) : Analysed :=
  let a := x.automaton.route origin sink symbols
  ⟨a, x.memo.afterEdge (x.automaton.table.label? origin sink) (a.table.label? origin sink)⟩

/-- Further symbols on the edges from several states to a sink. -/
def routeAll (x : Analysed) (sink : StateId) (missing : List (StateId × SymbolSet)) :
    Analysed :=
  missing.foldl (fun x (s, symbols) => x.route s sink symbols) x

theorem automaton_routeAll (x : Analysed) (sink : StateId)
    (missing : List (StateId × SymbolSet)) :
    (x.routeAll sink missing).automaton = x.automaton.routeAll sink missing := by
  induction missing generalizing x with
  | nil => rfl
  | cons m missing ih => exact ih (x.route m.1 sink m.2)

/-- Complete towards a sink that is already there, or towards a new state. -/
def completeTowards (x : Analysed) (alphabet : SymbolSet) (sink : Option StateId)
    (missing : List (StateId × SymbolSet)) (supply : IdSupply) : Analysed × IdSupply :=
  match sink with
  | some sink => (x.routeAll sink missing, supply)
  | none =>
      let (sink, supply) := supply.allocate
      -- A state without edges leaves every analysis as it is.
      let grown : Analysed := ⟨x.automaton.addState sink rejectStateName, x.memo⟩
      (grown.routeAll sink (missing ++ [(sink, alphabet)]), supply)

/-- What an edit does: the automaton itself, which may have been analysed; the
changed automaton, or `none` if nothing changes; the id of a new state if the
edit adds one; and the ids that are left. -/
structure Outcome where
  source : Analysed
  result : Option Analysed
  added : Option StateId
  supply : IdSupply

/-- Give every state a transition on every symbol of the alphabet. -/
def complete (x : Analysed) (supply : IdSupply) : Outcome :=
  let (alphabet, x) := x.effectiveAlphabet
  match x.automaton.lacking alphabet with
  -- The generating states are not needed if nothing is lacking.
  | [] => ⟨x, none, none, supply⟩
  | missing =>
      let (generating, x) := x.generatingStates
      let (completed, supply) :=
        x.completeTowards alphabet (x.automaton.existingSink? generating) missing supply
      ⟨x, some completed, none, supply⟩

/-- Perform an edit. -/
def edit (x : Analysed) (supply : IdSupply) (e : Edit) : Except EditError Outcome :=
  let a := x.automaton
  let plain (result : Option Automaton) (memo : Memo) : Except EditError Outcome :=
    .ok ⟨x, derive result memo, none, supply⟩
  match e with
  | .addState name =>
      let (s, supply) := supply.allocate
      .ok ⟨x, some ⟨a.addState s name, x.memo⟩, some s, supply⟩
  | .removeState s => plain (a.removeState? s) x.memo.afterRemoval
  | .setTransition o t label => do
      let result ← (a.setTransition? o t label).mapError .symbol
      plain result (x.memo.afterEdge (a.label? o t) (result.bind (·.label? o t)))
  | .setTransitionTarget o old new =>
      plain (a.setTransitionTarget? o old new) x.memo.afterMove
  | .removeTransition o t => plain (a.removeTransition? o t) x.memo.afterRemoval
  | .setStart s => plain (a.setStart? s) x.memo.afterStart
  | .setAccept s accept => plain (a.setAccept? s accept) x.memo.afterAccept
  | .toggleAccept s => plain (a.toggleAccept? s) x.memo.afterAccept
  | .setName s name => plain (a.setName? s name) x.memo
  | .setAlphabet alphabet => do
      plain (← (a.setAlphabet? alphabet).mapError .symbol) x.memo
  | .unsetAlphabet => plain a.unsetAlphabet? x.memo
  | .trim =>
      let (result, x) := x.trim?
      .ok ⟨x, result, none, supply⟩
  | .complete => .ok (x.complete supply)

end Analysed

end FiniteAutomata
