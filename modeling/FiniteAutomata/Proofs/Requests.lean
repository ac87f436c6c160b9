/-
  FiniteAutomata.Proofs.Requests
  ──────────────────────────────
  **EVERY CALL COMES DOWN TO REQUESTS.**

  Lists of commands and editors are conveniences: what they do to a workspace can
  be requested edit by edit.  `requestsFor` unrolls a list of commands into the
  edits that are performed, each on the version that the one before it answers,
  and `Session.allRequests` does so for all calls of a session.

      serveAll_requestsFor          a list of commands
      Editor.workspace_performAll   commands in an editor
      Editor.addStates_eq           states added in an editor, which never fails
      Session.workspace_serveAll    all calls

  What holds of every sequence of requests thus holds of whatever a caller does.
-/
import FiniteAutomata.Proofs.Calls

namespace FiniteAutomata

/-! ## §1. Commands. -/

namespace Workspace

/-- The edits that commands come to; there is none after a failure. -/
def requestsFor (w : Workspace) (v : VersionId) : List Command → List Request
  | .edit e :: rest =>
      .perform v e ::
        match w.perform v e with
        | .ok done => done.workspace.requestsFor done.version rest
        | .error _ => []
  | _ => []

variable {w : Workspace} {v : VersionId}

theorem serveAll_append (w : Workspace) (before after : List Request) :
    (w.serveAll (before ++ after)).2 = ((w.serveAll before).2.serveAll after).2 := by
  induction before generalizing w with
  | nil => rfl
  | cons r rest ih => exact ih (w.serve r).2

theorem serve_perform (hv : v < w.versions.size) (e : Edit) :
    w.serve (.perform v e) = w.servePerform v e := by
  simp only [serve, Array.getElem?_eq_getElem hv]

/-- **Commands.** -/
theorem serveAll_requestsFor (hv : v < w.versions.size) (commands : List Command) :
    (w.serveAll (w.requestsFor v commands)).2 = (w.performAll v commands).2 := by
  induction commands generalizing w v with
  | nil => rfl
  | cons c rest ih =>
      cases c with
      | other value => rfl
      | edit e =>
          show (((w.serve (.perform v e)).2).serveAll _).2 = _
          rw [serve_perform hv, servePerform, performAll, performCommand]
          cases h : w.perform v e with
          | error err => rfl
          | ok done => exact ih (version_lt_of_perform hv h)

end Workspace

/-! ## §2. Editors. -/

namespace Editor

variable {w : Workspace} {d : Editor}

theorem workspace_performAll (d : Editor) (w : Workspace) (commands : List Command) :
    (d.performAll w commands).workspace = (w.performAll d.current commands).2 := by
  induction commands generalizing d w with
  | nil => rfl
  | cons c rest ih =>
      cases c with
      | other value => rfl
      | edit e =>
          unfold performAll Workspace.performAll
          simp only [performCommand, perform, Workspace.performCommand, bind, Except.bind]
          cases w.perform d.current e with
          | error err => rfl
          | ok done => exact ih { d with current := done.version } done.workspace

/-- The commands that add states. -/
def additions (names : List Json) : List Command := names.map fun name => .edit (.addState name)

/-- Adding states does not fail, and does what the commands do. -/
theorem addStates_eq (d : Editor) (w : Workspace) (names : List Json) :
    ∃ ids d', d.addStates w names
      = .ok (ids, d', (w.performAll d.current (additions names)).2) := by
  induction names generalizing d w with
  | nil => exact ⟨[], d, rfl⟩
  | cons name rest ih =>
      obtain ⟨done, hdone⟩ : ∃ done, w.perform d.current (.addState name) = .ok done := ⟨_, rfl⟩
      obtain ⟨ids, d', hrest⟩ := ih { d with current := done.version } done.workspace
      refine ⟨done.added.toList ++ ids, d', ?_⟩
      unfold addStates additions Workspace.performAll
      simp only [perform, hdone, bind, Except.bind, pure, Except.pure, hrest, List.map_cons,
        Workspace.performCommand, additions]

end Editor

/-! ## §3. Sessions. -/

namespace Session

/-- The requests that a call comes to. -/
def requestsFor (s : Session) : Call → List Request
  | .request r => [r]
  | .performAll v commands =>
      if v < s.workspace.versions.size then s.workspace.requestsFor v commands else []
  | .openEditor _ => []
  | .editIn d e =>
      if d < s.editors.size then s.workspace.requestsFor (s.editor d).current [.edit e] else []
  | .addStatesIn d names =>
      if d < s.editors.size then
        s.workspace.requestsFor (s.editor d).current (Editor.additions names)
      else []
  | .performAllIn d commands =>
      if d < s.editors.size then s.workspace.requestsFor (s.editor d).current commands else []

/-- The requests that calls come to, in order. -/
def allRequests (s : Session) : List Call → List Request
  | [] => []
  | c :: rest => s.requestsFor c ++ (s.serve c).allRequests rest

variable {s : Session}

/-- A call that does not refer to what is there requests nothing. -/
theorem workspace_guarded {p : Prop} [Decidable p] {s' : Session} {requests : List Request}
    (h : p → s'.workspace = (s.workspace.serveAll requests).2) :
    (if p then s' else s).workspace
      = (s.workspace.serveAll (if p then requests else [])).2 := by
  by_cases hp : p
  · rw [if_pos hp, if_pos hp]
    exact h hp
  · rw [if_neg hp, if_neg hp]
    rfl

/-- **One call.** -/
theorem workspace_serve (h : s.Sound) (c : Call) :
    (s.serve c).workspace = (s.workspace.serveAll (s.requestsFor c)).2 := by
  cases c with
  | request r => rfl
  | performAll v commands =>
      exact workspace_guarded fun hv => (Workspace.serveAll_requestsFor hv commands).symm
  | openEditor v =>
      simp only [serve, requestsFor]
      split <;> rfl
  | editIn d e =>
      refine workspace_guarded fun hd => ?_
      rw [Workspace.serveAll_requestsFor (h.current_editor_lt hd)]
      simp only [editIn, Editor.perform, Workspace.performAll, Workspace.performCommand, bind,
        Except.bind]
      cases s.workspace.perform (s.editor d).current e <;> rfl
  | addStatesIn d names =>
      refine workspace_guarded fun hd => ?_
      rw [Workspace.serveAll_requestsFor (h.current_editor_lt hd)]
      obtain ⟨ids, d', hadded⟩ := (s.editor d).addStates_eq s.workspace names
      simp only [addStatesIn, hadded, bind, Except.bind]
      rfl
  | performAllIn d commands =>
      refine workspace_guarded fun hd => ?_
      rw [Workspace.serveAll_requestsFor (h.current_editor_lt hd)]
      exact (s.editor d).workspace_performAll s.workspace commands

/-- **All calls.** -/
theorem workspace_serveAll (h : s.Sound) (calls : List Call) :
    (s.serveAll calls).workspace = (s.workspace.serveAll (s.allRequests calls)).2 := by
  induction calls generalizing s with
  | nil => rfl
  | cons c rest ih =>
      rw [allRequests, Workspace.serveAll_append, ← workspace_serve h]
      exact ih (h.serve c)

end Session

end FiniteAutomata
