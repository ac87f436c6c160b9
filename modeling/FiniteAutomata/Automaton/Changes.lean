/-
  FiniteAutomata.Automaton.Changes
  ────────────────────────────────
  **Changes of an automaton.**

  A change answers the changed automaton, or `none` if nothing would change; in
  particular if a reference names no state.  `Label` is what a caller may give
  for symbols: a text, which has yet to be read, or a symbol set.
-/
import FiniteAutomata.Automaton.Basic
import FiniteAutomata.Json.Compare
import FiniteAutomata.SymbolSet.Reader

namespace FiniteAutomata

/-- Symbols as a caller gives them. -/
inductive Label where
  | text (text : String)
  | symbols (symbols : SymbolSet)
  deriving DecidableEq

/-- The symbol set that a label stands for. -/
def Label.read : Label → Except SymbolError SymbolSet
  | .text t => SymbolSet.read t
  | .symbols s => .ok s

namespace Automaton

/-! ## §1. States. -/

/-- A further state, without edges. -/
def addState (a : Automaton) (s : StateId) (name : Json) : Automaton :=
  { a with
    states := OrderedSet.insert s a.states
    names := a.names.insert s name
    table := a.table.insert s ∅ }

/-- The automaton without a state and the edges at it. -/
def dropState (a : Automaton) (s : StateId) : Automaton :=
  { a with
    -- A start state that goes leaves the automaton without one.
    start := if a.start = some s then none else a.start
    states := a.states.erase s
    names := a.names.erase s
    accept := a.accept.erase s
    table := (a.table.erase s).map fun _ r => r.erase s }

/-- Remove a state. -/
def removeState? (a : Automaton) (state : StateRef) : Option Automaton :=
  (a.resolve? state).map a.dropState

/-- Make a state the start; the id zero clears the start. -/
def setStart? (a : Automaton) (state : StateRef) : Option Automaton :=
  -- Zero never names a state, so it can stand for none.
  if state = .id 0 then
    if a.start = none then none else some { a with start := none }
  else
    match a.resolve? state with
    | some s => if a.start = some s then none else some { a with start := some s }
    | none => none

/-- Make a state accepting, or make it not accepting. -/
def setAccept? (a : Automaton) (state : StateRef) (accept : Bool) : Option Automaton :=
  match a.resolve? state with
  | some s =>
      if decide (s ∈ a.accept) = accept then none
      else some { a with
        accept := if accept then OrderedSet.insert s a.accept else a.accept.erase s }
  | none => none

/-- Turn accepting on or off. -/
def toggleAccept? (a : Automaton) (state : StateRef) : Option Automaton :=
  a.setAccept? state !(a.isAccept state)

/-- Rename a state.  A state whose name equals the new one keeps its name as it is
written. -/
def setName? (a : Automaton) (state : StateRef) (name : Json) : Option Automaton :=
  match a.resolve? state with
  | some s =>
      if (a.names.get? s).any (·.isEqual name) then none
      else some { a with names := a.names.insert s name }
  | none => none

/-! ## §2. Edges. -/

/-- The automaton with other edges at one origin. -/
def withRow (a : Automaton) (origin : StateId) (r : Row) : Automaton :=
  { a with table := a.table.insert origin r }

theorem label?_withRow (a : Automaton) (o o' target : StateId) (r : Row) :
    (a.withRow o r).table.label? o' target =
      if o' = o then r.get? target else a.table.label? o' target :=
  Table.label?_insert a.table o o' target r

/-- Remove the edge between two states. -/
def dropEdge? (a : Automaton) (origin target : StateId) : Option Automaton :=
  match a.table.label? origin target with
  | some _ => some (a.withRow origin ((a.table.row origin).erase target))
  | none => none

/-- Create the edge between two states or replace its symbols; without symbols
the edge is removed. -/
def relabel? (a : Automaton) (origin target : StateId) (symbols : SymbolSet) :
    Option Automaton :=
  if symbols.isEmpty then a.dropEdge? origin target
  else if a.table.label? origin target = some symbols then none
  else some (a.withRow origin ((a.table.row origin).insert target symbols))

/-- After a change of its symbols an edge has the new ones, or it is gone if there
are none, and every other edge is as it was. -/
theorem label?_of_relabel? {a b : Automaton} {origin target : StateId}
    {symbols : SymbolSet} (h : a.relabel? origin target symbols = some b)
    (o t : StateId) :
    b.table.label? o t =
      if o = origin ∧ t = target then if symbols.isEmpty then none else some symbols
      else a.table.label? o t := by
  have row_get? : ∀ t, (a.table.row origin).get? t = a.table.label? origin t := fun _ => rfl
  unfold relabel? at h
  by_cases hempty : symbols.isEmpty = true
  · rw [if_pos hempty] at h
    unfold dropEdge? at h
    cases hl : a.table.label? origin target with
    | none => simp [hl] at h
    | some g =>
        simp only [hl, Option.some.injEq] at h
        subst h
        rw [label?_withRow, OrderedMap.get?_erase, row_get?]
        by_cases ho : o = origin <;> by_cases ht : t = target <;> simp [ho, ht, hempty]
  · rw [if_neg hempty] at h
    by_cases hsame : a.table.label? origin target = some symbols
    · simp [hsame] at h
    · rw [if_neg hsame] at h
      simp only [Option.some.injEq] at h
      subst h
      rw [label?_withRow, OrderedMap.get?_insert, row_get?]
      by_cases ho : o = origin <;> by_cases ht : t = target <;> simp [ho, ht, hempty]

/-- Create an edge or replace its symbols.  The label is read only if both
references name states. -/
def setTransition? (a : Automaton) (origin target : StateRef) (label : Label) :
    Except SymbolError (Option Automaton) :=
  match a.resolve? origin, a.resolve? target with
  | some o, some t => do
      let symbols ← label.read
      return a.relabel? o t symbols
  | _, _ => .ok none

/-- Remove an edge. -/
def removeTransition? (a : Automaton) (origin target : StateRef) : Option Automaton :=
  match a.resolve? origin, a.resolve? target with
  | some o, some t => a.dropEdge? o t
  | _, _ => none

/-- Move an edge between states to another target, where it is merged with an
edge that is already there. -/
def moveEdge? (a : Automaton) (origin old new : StateId) : Option Automaton :=
  if old = new then none
  else
    match a.table.label? origin old with
    | some symbols =>
        -- The other edge may be missing; then the symbols move as they are.
        let merged := symbols ∪ (a.table.label? origin new).getD ∅
        some (a.withRow origin (((a.table.row origin).erase old).insert new merged))
    | none => none

/-- Move an edge to another target. -/
def setTransitionTarget? (a : Automaton) (origin old new : StateRef) :
    Option Automaton :=
  match a.resolve? origin, a.resolve? old, a.resolve? new with
  | some o, some x, some y => a.moveEdge? o x y
  | _, _, _ => none

/-! ## §3. The alphabet. -/

/-- The alphabet that a label stands for: no label for none, and never the empty
symbol. -/
def readAlphabet : Option Label → Except SymbolError (Option SymbolSet)
  | none => .ok none
  | some label => do
      let symbols ← label.read
      return some symbols.withoutEmpty

/-- Replace the explicit alphabet.  Clearing it changes nothing only if an
alphabet that matches nothing is set. -/
def withAlphabet? (a : Automaton) (alphabet : Option SymbolSet) : Option Automaton :=
  match a.alphabet with
  | some current =>
      -- Clearing is compared as if it set an alphabet that matches nothing.
      if current = alphabet.getD ∅ then none else some { a with alphabet }
  | none => some { a with alphabet }

/-- Set the explicit alphabet. -/
def setAlphabet? (a : Automaton) (alphabet : Option Label) :
    Except SymbolError (Option Automaton) := do
  return a.withAlphabet? (← readAlphabet alphabet)

/-- Clear the explicit alphabet. -/
def unsetAlphabet? (a : Automaton) : Option Automaton :=
  match a.alphabet with
  | some _ => some { a with alphabet := none }
  | none => none

/-! ## §4. Trimming. -/

/-- The states that trimming keeps: those that are both reachable and generating,
and the start in any case. -/
def kept (a : Automaton) (reachable generating : StateSet) : StateSet :=
  match a.start with
  | some s => OrderedSet.insert s (reachable ∩ generating)
  | none => reachable ∩ generating

/-- The automaton with some of its states and the edges between them. -/
def restrictTo (a : Automaton) (keep : StateSet) : Automaton :=
  { a with
    states := keep
    names := a.names.filter fun s _ => s ∈ keep
    accept := a.accept ∩ keep
    -- First the rows of other states go, then the edges into them.
    table := (a.table.filter fun s _ => s ∈ keep).map fun _ r =>
      r.filter fun t _ => t ∈ keep }

/-- Trim, given the reachable and the generating states; `none` if all states
are kept. -/
def trimFor? (a : Automaton) (reachable generating : StateSet) : Option Automaton :=
  let keep := a.kept reachable generating
  if keep = a.states then none else some (a.restrictTo keep)

/-- Remove every state that is unreachable or not generating, the start state
excepted; `none` if there is none to remove. -/
def trim? (a : Automaton) : Option Automaton :=
  a.trimFor? a.reachableStates a.generatingStates

/-- The automaton without the states that trimming removes. -/
def trim (a : Automaton) : Automaton := a.trim?.getD a

end Automaton

end FiniteAutomata
