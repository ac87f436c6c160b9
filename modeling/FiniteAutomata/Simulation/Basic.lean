/-
  FiniteAutomata.Simulation.Basic
  ───────────────────────────────
  **Simulations: an automaton, its unread input, and perhaps a run.**

  A simulation is a value, and what is done with it answers another one.  Input
  can be given before and during a run, and a run can be continued on another
  automaton.  `Act` is what can be done with a simulation, as data.
-/
import FiniteAutomata.Simulation.Run

namespace FiniteAutomata

/-- An automaton with unread input, and the run if there is one. -/
structure Simulation where
  automaton : Automaton
  remaining : List Char
  progress : Option Run
  deriving DecidableEq

/-- The reason for which a simulation fails. -/
inductive SimulationError where
  | notRunning
  deriving DecidableEq, Repr

/-- The wording of a failure. -/
def SimulationError.message : SimulationError → String
  | .notRunning => "simulation is not running; call reset() first"

namespace Simulation

/-- The simulation of an automaton before any run. -/
def ofAutomaton (a : Automaton) (remaining : List Char) : Simulation :=
  ⟨a, remaining, none⟩

instance : Inhabited Simulation := ⟨ofAutomaton Automaton.empty []⟩

/-! ## §1. State. -/

/-- Whether there is a run. -/
def isRunning (s : Simulation) : Bool := s.progress.isSome

/-- The states that the run may be in. -/
def current (s : Simulation) : StateSet :=
  match s.progress with
  | some r => r.current
  | none => ∅

/-- The edges followed in the run. -/
def followed (s : Simulation) : History :=
  match s.progress with
  | some r => r.followed
  | none => ∅

/-- The number of characters read in the run. -/
def readCount? (s : Simulation) : Option Nat := s.progress.map (·.readCount)

/-- The number of characters read as it is shown: minus one without a run. -/
def shownReadCount (s : Simulation) : Int := (s.readCount?.map Int.ofNat).getD (-1)

/-- The verdict on the run; without a run it is inconclusive. -/
def verdict (s : Simulation) : Verdict :=
  match s.progress with
  | some r => r.verdict s.automaton
  | none => .inconclusive

/-- Whether the run may be in a state. -/
def isCurrent (s : Simulation) (state : StateRef) : Bool :=
  match state with
  | .id id => id ∈ s.current
  | .foreign => false

/-- The number of characters read when an edge was followed last. -/
def lastFollowed? (s : Simulation) (origin target : StateRef) : Option Nat :=
  match origin, target with
  | .id o, .id t => s.followed.get? ⟨o, t⟩
  | _, _ => none

/-- Whether an edge was followed in the run. -/
def hasFollowed (s : Simulation) (origin target : StateRef) : Bool :=
  (s.lastFollowed? origin target).isSome

/-- Whether an edge was followed on the last character read. -/
def justFollowed (s : Simulation) (origin target : StateRef) : Bool :=
  s.isRunning && s.lastFollowed? origin target = s.readCount?

/-! ## §2. Input. -/

/-- Replace the unread input. -/
def setInput (s : Simulation) (text : List Char) : Simulation :=
  { s with remaining := text }

/-- Put more input behind the unread input. -/
def addInput (s : Simulation) (text : List Char) : Simulation :=
  { s with remaining := s.remaining ++ text }

/-! ## §3. Runs. -/

/-- Begin a run, on new input if some is given. -/
def reset (s : Simulation) (text : Option (List Char)) : Simulation :=
  { s with
    remaining := text.getD s.remaining
    progress := some (Run.begin s.automaton) }

/-- Give up the run. -/
def stop (s : Simulation) : Simulation := { s with progress := none }

/-- The run; a new one if there is none. -/
def runOrBegin (s : Simulation) : Run := s.progress.getD (Run.begin s.automaton)

/-- Read one character, if there is one. -/
def step (s : Simulation) : Except SimulationError Simulation :=
  match s.progress, s.remaining with
  | none, _ => .error .notRunning
  | some _, [] => .ok s
  | some r, c :: rest =>
      .ok { s with remaining := rest, progress := some (r.advance s.automaton.table c) }

/-- Read all input, and more of it, as long as the run is not rejected. -/
def run (s : Simulation) (extra : List Char) : Simulation :=
  -- What is not read stays for later.
  let (r, rest) := s.runOrBegin.advanceLive s.automaton s.automaton.generatingStates
    (s.remaining ++ extra)
  { s with remaining := rest, progress := some r }

/-- Read all input, and more of it. -/
def runComplete (s : Simulation) (extra : List Char) : Simulation :=
  { s with
    remaining := []
    progress := some (s.runOrBegin.advanceAll s.automaton.table (s.remaining ++ extra)) }

/-- Whether the run accepts when it has read all input. -/
def willAccept (s : Simulation) : Bool :=
  s.isRunning && s.verdict ≠ .reject && (s.run []).verdict = .accept

/-- Go on with another automaton. -/
def withAutomaton (s : Simulation) (a : Automaton) : Simulation :=
  { s with automaton := a, progress := s.progress.map (·.moveTo a) }

end Simulation

/-! ## §4. Acts. -/

/-- One thing to do with a simulation. -/
inductive Act where
  | setInput (text : List Char)
  | addInput (text : List Char)
  | reset (text : Option (List Char))
  | step
  | run (extra : List Char)
  | runComplete (extra : List Char)
  | stop

/-- Whether an act begins anew in any case, even from where it leads to. -/
def Act.startsOver : Act → Bool
  | .reset _ => true
  | _ => false

namespace Simulation

/-- Perform an act. -/
def act (s : Simulation) : Act → Except SimulationError Simulation
  | .setInput text => .ok (s.setInput text)
  | .addInput text => .ok (s.addInput text)
  | .reset text => .ok (s.reset text)
  | .step => s.step
  | .run extra => .ok (s.run extra)
  | .runComplete extra => .ok (s.runComplete extra)
  | .stop => .ok s.stop

end Simulation

end FiniteAutomata
