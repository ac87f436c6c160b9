/-
  FiniteAutomata.Workspace.Editor
  ───────────────────────────────
  Editors: a version that moves on with each edit.

  An editor is opened on a version and holds the version that its edits have led
  to.  If a command fails, the commands before it stand.
-/
import FiniteAutomata.Workspace.Basic

namespace FiniteAutomata

/-- The version that an editor was opened on and the version it holds. -/
structure Editor where
  origin : VersionId
  current : VersionId
  deriving DecidableEq, Inhabited

namespace Editor

/-- An editor opened on a version. -/
def openOn (v : VersionId) : Editor := ⟨v, v⟩

/-- Whether the editor holds another version than it was opened on. -/
def isModified (d : Editor) : Bool := d.current ≠ d.origin

/-- What an edit does in an editor. -/
structure Step where
  editor : Editor
  added : Option StateId
  workspace : Workspace

/-- Perform an edit. -/
def perform (d : Editor) (w : Workspace) (e : Edit) : Except EditError Step := do
  let done ← w.perform d.current e
  return ⟨{ d with current := done.version }, done.added, done.workspace⟩

/-- Add states with given names. -/
def addStates (d : Editor) (w : Workspace) :
    List Json → Except EditError (List StateId × Editor × Workspace)
  | [] => .ok ([], d, w)
  | name :: rest => do
      let step ← d.perform w (.addState name)
      let (ids, d, w) ← step.editor.addStates step.workspace rest
      return (step.added.toList ++ ids, d, w)

/-- What commands do in an editor: the editor and the workspace as the commands
that succeeded leave them, and the failure of the one that did not. -/
structure Progress where
  editor : Editor
  workspace : Workspace
  failure : Option EditError

/-- Perform a command. -/
def performCommand (d : Editor) (w : Workspace) : Command → Except EditError Step
  | .edit e => d.perform w e
  | .other value => .error (.notACommand value)

/-- Perform commands in order up to the first that fails. -/
def performAll (d : Editor) (w : Workspace) : List Command → Progress
  | [] => ⟨d, w, none⟩
  | c :: rest =>
      match d.performCommand w c with
      | .ok step => step.editor.performAll step.workspace rest
      -- The commands before this one stand.
      | .error e => ⟨d, w, some e⟩

end Editor

end FiniteAutomata
