/-
  FiniteAutomata.Workspace.Session
  ────────────────────────────────
  **Sessions: versions, editors and trials as objects.**

  A session holds a workspace together with the editors opened on its versions
  and the trials made of them.  Each of these is an object with an identity: an
  editor stays the same object whatever is done in it; what is done with a trial
  answers a new trial, or the same if nothing changes.
-/
import FiniteAutomata.Simulation.Basic
import FiniteAutomata.Workspace.Editor

namespace FiniteAutomata

/-- A simulation of a version. -/
structure Trial where
  version : VersionId
  simulation : Simulation
  deriving Inhabited

/-- The id of an editor. -/
abbrev EditorId := Nat

/-- The id of a trial. -/
abbrev TrialId := Nat

/-- A reference to something in a session. -/
inductive Object where
  | version (id : VersionId)
  | editor (id : EditorId)
  | trial (id : TrialId)
  deriving DecidableEq

/-- A workspace with its editors and trials, by id. -/
structure Session where
  workspace : Workspace
  editors : Array Editor
  trials : Array Trial

namespace Session

/-- The session without objects. -/
def empty : Session := ⟨.empty, #[], #[]⟩

instance : Inhabited Session := ⟨empty⟩

/-! ## §1. Versions. -/

/-- The root of a new lineage. -/
def create (s : Session) (a : Automaton) : VersionId × Session :=
  let (v, workspace) := s.workspace.create a
  (v, { s with workspace })

/-! ## §2. Editors. -/

/-- An editor; there is always one. -/
def editor (s : Session) (d : EditorId) : Editor := s.editors.getD d default

/-- Open an editor on a version. -/
def openEditor (s : Session) (v : VersionId) : EditorId × Session :=
  (s.editors.size, { s with editors := s.editors.push (.openOn v) })

/-- The session after an editor has moved on. -/
def withEditor (s : Session) (d : EditorId) (editor : Editor) (workspace : Workspace) :
    Session :=
  { s with workspace, editors := s.editors.modify d fun _ => editor }

/-- Perform an edit in an editor. -/
def editIn (s : Session) (d : EditorId) (e : Edit) :
    Except EditError (Option StateId × Session) := do
  let step ← (s.editor d).perform s.workspace e
  return (step.added, s.withEditor d step.editor step.workspace)

/-- Add states in an editor. -/
def addStatesIn (s : Session) (d : EditorId) (names : List Json) :
    Except EditError (List StateId × Session) := do
  let (ids, editor, workspace) ← (s.editor d).addStates s.workspace names
  return (ids, s.withEditor d editor workspace)

/-- Perform commands in an editor up to the first that fails. -/
def performAllIn (s : Session) (d : EditorId) (commands : List Command) :
    Option EditError × Session :=
  let progress := (s.editor d).performAll s.workspace commands
  (progress.failure, s.withEditor d progress.editor progress.workspace)

/-! ## §3. Trials. -/

/-- A trial; there is always one. -/
def trial (s : Session) (t : TrialId) : Trial := s.trials.getD t default

/-- A further trial. -/
def push (s : Session) (trial : Trial) : TrialId × Session :=
  (s.trials.size, { s with trials := s.trials.push trial })

/-- Make a trial of a version. -/
def simulate (s : Session) (v : VersionId) (remaining : List Char) : TrialId × Session :=
  s.push ⟨v, .ofAutomaton (s.workspace.automaton v) remaining⟩

/-- Perform an act with a trial. -/
def act (s : Session) (t : TrialId) (act : Act) :
    Except SimulationError (TrialId × Session) := do
  let ⟨version, simulation⟩ := s.trial t
  let result ← simulation.act act
  -- The same simulation is the same trial, unless the act starts over.
  if result = simulation && !act.startsOver then return (t, s)
  else return s.push ⟨version, result⟩

/-- Go on with another version in a trial. -/
def goOnWith (s : Session) (t : TrialId) (v : VersionId) : TrialId × Session :=
  let ⟨version, simulation⟩ := s.trial t
  if v = version then (t, s)
  else s.push ⟨v, simulation.withAutomaton (s.workspace.automaton v)⟩

end Session

end FiniteAutomata
