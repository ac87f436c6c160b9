/-
  FiniteAutomata.Proofs.Calls
  ───────────────────────────
  **WHATEVER A CALLER DOES, EVERY AUTOMATON IS WELL-FORMED.**

  Callers edit versions directly, by lists of commands, or in editors.  All of it
  comes down to `Workspace.perform`, an edit of one version, so a sound workspace
  stays sound.  An editor has to hold a version that is there, and a workspace
  never loses one or changes its automaton:

      Workspace.Continues     sound, no version lost, and one version in hand
      Workspace.Sound.automaton_serve
                              the automaton of a version through one request
      Session.Sound.serve     one call
      Session.Sound.serveAll  all calls

  Main statement: every automaton that calls come to is well-formed, and its
  states lie below the ids that its lineage has left (`wellFormed_of_calls`).
-/
import FiniteAutomata.Proofs.Sessions
import FiniteAutomata.Workspace.Session

namespace FiniteAutomata

/-! ## §1. Calls. -/

/-- What a caller does with the automata of a session. -/
inductive Call where
  /-- Create an automaton, ask about a version or edit it. -/
  | request (request : Request)
  /-- Perform commands, each on the version that the one before it answers. -/
  | performAll (version : VersionId) (commands : List Command)
  | openEditor (version : VersionId)
  | editIn (editor : EditorId) (edit : Edit)
  | addStatesIn (editor : EditorId) (names : List Json)
  | performAllIn (editor : EditorId) (commands : List Command)

namespace Session

/-- The session after an attempt; one that fails leaves it as it was. -/
def attempt {α : Type} (s : Session) : Except EditError (α × Session) → Session
  | .ok (_, s') => s'
  | .error _ => s

/-- The session after a call.  A call must refer to what is there. -/
def serve (s : Session) : Call → Session
  | .request r => { s with workspace := (s.workspace.serve r).2 }
  | .performAll v commands =>
      if v < s.workspace.versions.size then
        { s with workspace := (s.workspace.performAll v commands).2 }
      else s
  | .openEditor v => if v < s.workspace.versions.size then (s.openEditor v).2 else s
  | .editIn d e => if d < s.editors.size then s.attempt (s.editIn d e) else s
  | .addStatesIn d names =>
      if d < s.editors.size then s.attempt (s.addStatesIn d names) else s
  | .performAllIn d commands =>
      if d < s.editors.size then (s.performAllIn d commands).2 else s

/-- The session after calls in order. -/
def serveAll (s : Session) (calls : List Call) : Session := calls.foldl serve s

end Session

/-! ## §2. Workspaces only grow. -/

namespace PlainWorkspace

/-- Requests leave every version as it is. -/
theorem getElem?_serve (w : PlainWorkspace) (r : Request) {v : VersionId}
    (hv : v < w.versions.size) : (w.serve r).2.versions[v]? = w.versions[v]? := by
  have hpush : ∀ x, (w.versions.push x)[v]? = w.versions[v]? := fun x => by
    rw [Array.getElem?_push_lt hv, Array.getElem?_eq_getElem hv]
  cases r with
  | create o =>
      simp only [serve]
      cases o.automaton with
      | error err => rfl
      | ok a => exact hpush _
  | ask u q =>
      simp only [serve]
      cases w.versions[u]? <;> rfl
  | perform u e =>
      simp only [serve]
      cases w.versions[u]? with
      | none => rfl
      | some x =>
          simp only [servePerform]
          cases x.automaton.edit (w.supplies.getD x.lineage default) e with
          | error err => rfl
          | ok d =>
              obtain ⟨result, added, supply⟩ := d
              cases result with
              | none => rfl
              | some b => exact hpush _

end PlainWorkspace

namespace Workspace

/-- `w.Continues w' v`: the second workspace is sound, has all versions of the
first, and has the version `v`. -/
structure Continues (w w' : Workspace) (v : VersionId) : Prop where
  sound : w'.Sound
  size_le : w.versions.size ≤ w'.versions.size
  version_lt : v < w'.versions.size

variable {w w' w'' : Workspace} {v u : VersionId}

theorem Continues.refl (h : w.Sound) (hv : v < w.versions.size) : w.Continues w v :=
  ⟨h, Nat.le_refl _, hv⟩

theorem Continues.trans (h : w.Continues w' v) (h' : w'.Continues w'' u) : w.Continues w'' u :=
  ⟨h'.sound, Nat.le_trans h.size_le h'.size_le, h'.version_lt⟩

/-- An edit answers the version that it is made on, or one behind all others. -/
theorem perform_cases {e : Edit} {done : Performed} (h : w.perform v e = .ok done) :
    done.version = v ∧ done.workspace.versions.size = w.versions.size
      ∨ done.version = w.versions.size
        ∧ done.workspace.versions.size = w.versions.size + 1 := by
  obtain ⟨outcome, _, h⟩ := bind_eq_ok.1 h
  have hsize : (((w.remember v outcome.source).replenish (w.version v).lineage
      outcome.supply).versions).size = w.versions.size := Array.size_modify
  cases hr : outcome.result with
  | none =>
      simp only [hr, pure, Except.pure, Except.ok.injEq] at h
      subst h
      exact Or.inl ⟨rfl, hsize⟩
  | some x =>
      simp only [hr, pure, Except.pure, Except.ok.injEq] at h
      subst h
      exact Or.inr ⟨hsize, (Array.size_push _).trans (congrArg (· + 1) hsize)⟩

/-- An edit answers a version that is there. -/
theorem version_lt_of_perform (hv : v < w.versions.size) {e : Edit} {done : Performed}
    (h : w.perform v e = .ok done) : done.version < done.workspace.versions.size := by
  obtain ⟨hversion, hsize⟩ | ⟨hversion, hsize⟩ := perform_cases h
  · rw [hversion, hsize]
    exact hv
  · rw [hversion, hsize]
    exact Nat.lt_succ_self _

/-- **One edit.** -/
theorem Sound.perform (h : w.Sound) (hv : v < w.versions.size) {e : Edit} {done : Performed}
    (hdone : w.perform v e = .ok done) : w.Continues done.workspace done.version := by
  have hx : w.versions[v]? = some w.versions[v] := Array.getElem?_eq_getElem hv
  have hsound := (servePerform_forget h hx e).2.2
  simp only [servePerform, hdone] at hsound
  refine ⟨hsound, ?_, version_lt_of_perform hv hdone⟩
  obtain ⟨_, hsize⟩ | ⟨_, hsize⟩ := perform_cases hdone
  · exact Nat.le_of_eq hsize.symm
  · exact hsize ▸ Nat.le_succ _

theorem Sound.performCommand (h : w.Sound) (hv : v < w.versions.size) {c : Command}
    {done : Performed} (hdone : w.performCommand v c = .ok done) :
    w.Continues done.workspace done.version := by
  cases c with
  | edit e => exact h.perform hv hdone
  | other value => cases hdone

/-- Commands leave the version that they begin on where it is. -/
theorem Sound.performAll (h : w.Sound) (hv : v < w.versions.size) (commands : List Command) :
    w.Continues (w.performAll v commands).2 v := by
  suffices hgrown : (w.performAll v commands).2.Sound
      ∧ w.versions.size ≤ (w.performAll v commands).2.versions.size from
    ⟨hgrown.1, hgrown.2, Nat.lt_of_lt_of_le hv hgrown.2⟩
  induction commands generalizing w v with
  | nil => exact ⟨h, Nat.le_refl _⟩
  | cons c rest ih =>
      unfold Workspace.performAll
      cases hdone : w.performCommand v c with
      | error err => exact ⟨h, Nat.le_refl _⟩
      | ok done =>
          have hc := h.performCommand hv hdone
          obtain ⟨hsound, hle⟩ := ih hc.sound hc.version_lt
          exact ⟨hsound, Nat.le_trans hc.size_le hle⟩

/-- Requests lose no version. -/
theorem size_le_serve (w : Workspace) (r : Request) :
    w.versions.size ≤ (w.serve r).2.versions.size := by
  cases r with
  | create o =>
      simp only [serve]
      cases o.automaton with
      | error err => exact Nat.le_refl _
      | ok a =>
          show w.versions.size ≤ (w.versions.push _).size
          rw [Array.size_push]
          exact Nat.le_succ _
  | ask v q =>
      simp only [serve]
      cases w.versions[v]? with
      | none => exact Nat.le_refl _
      | some x => exact Nat.le_of_eq Array.size_modify.symm
  | perform v e =>
      simp only [serve]
      cases w.versions[v]? with
      | none => exact Nat.le_refl _
      | some x =>
          simp only [servePerform]
          cases hdone : w.perform v e with
          | error err => exact Nat.le_refl _
          | ok done =>
              obtain ⟨_, hsize⟩ | ⟨_, hsize⟩ := perform_cases hdone
              · exact Nat.le_of_eq hsize.symm
              · exact hsize ▸ Nat.le_succ _

/-- **One request**, which need not refer to the version in hand. -/
theorem Sound.serve_continues (h : w.Sound) (hv : v < w.versions.size) (r : Request) :
    w.Continues (w.serve r).2 v :=
  ⟨(serve_forget h r).2.2, w.size_le_serve r, Nat.lt_of_lt_of_le hv (w.size_le_serve r)⟩

/-- Requests leave the automaton of every version as it is. -/
theorem Sound.automaton_serve (h : w.Sound) (hv : v < w.versions.size) (r : Request) :
    (w.serve r).2.automaton v = w.automaton v := by
  have hv' := (h.serve_continues hv r).version_lt
  have hplain : (w.serve r).2.forget.versions[v]? = w.forget.versions[v]? := by
    rw [(serve_forget h r).2.1]
    exact w.forget.getElem?_serve r (by rw [forget_size]; exact hv)
  rw [getElem?_forget, getElem?_forget, getElem?_version hv, getElem?_version hv'] at hplain
  exact congrArg PlainVersion.automaton (Option.some.inj hplain)

end Workspace

/-! ## §3. Editors hold a version that is there. -/

namespace Editor

variable {w : Workspace} {d : Editor}

theorem perform_continues (h : w.Sound) (hd : d.current < w.versions.size) {e : Edit}
    {step : Step} (hstep : d.perform w e = .ok step) :
    w.Continues step.workspace step.editor.current := by
  obtain ⟨done, hdone, hstep⟩ := bind_eq_ok.1 hstep
  cases hstep
  exact h.perform hd hdone

theorem performCommand_continues (h : w.Sound) (hd : d.current < w.versions.size) {c : Command}
    {step : Step} (hstep : d.performCommand w c = .ok step) :
    w.Continues step.workspace step.editor.current := by
  cases c with
  | edit e => exact perform_continues h hd hstep
  | other value => cases hstep

theorem addStates_continues (h : w.Sound) (hd : d.current < w.versions.size)
    {names : List Json} {ids : List StateId} {d' : Editor} {w' : Workspace}
    (hadded : d.addStates w names = .ok (ids, d', w')) : w.Continues w' d'.current := by
  induction names generalizing w d ids with
  | nil =>
      cases hadded
      exact .refl h hd
  | cons name rest ih =>
      obtain ⟨step, hstep, hadded⟩ := bind_eq_ok.1 hadded
      obtain ⟨⟨ids', d'', w''⟩, hrest, hadded⟩ := bind_eq_ok.1 hadded
      cases hadded
      have hc := perform_continues h hd hstep
      exact hc.trans (ih hc.sound hc.version_lt hrest)

theorem performAll_continues (h : w.Sound) (hd : d.current < w.versions.size)
    (commands : List Command) :
    w.Continues (d.performAll w commands).workspace (d.performAll w commands).editor.current := by
  induction commands generalizing w d with
  | nil => exact .refl h hd
  | cons c rest ih =>
      unfold performAll
      cases hstep : d.performCommand w c with
      | error err => exact .refl h hd
      | ok step =>
          have hc := performCommand_continues h hd hstep
          exact hc.trans (ih hc.sound hc.version_lt)

end Editor

/-! ## §4. Sessions. -/

namespace Session

variable {s : Session}

/-- A session is sound if its workspace is, and if every editor holds a version of
it. -/
structure Sound (s : Session) : Prop where
  workspace : s.workspace.Sound
  current_lt : ∀ d ∈ s.editors, d.current < s.workspace.versions.size

theorem sound_empty : empty.Sound where
  workspace := Workspace.sound_empty
  current_lt _ hd := absurd hd (Array.not_mem_empty _)

namespace Sound

theorem withWorkspace (h : s.Sound) {w : Workspace} (hw : w.Sound)
    (hle : s.workspace.versions.size ≤ w.versions.size) : Sound { s with workspace := w } :=
  ⟨hw, fun d hd => Nat.lt_of_lt_of_le (h.current_lt d hd) hle⟩

theorem withEditor (h : s.Sound) (i : EditorId) {d : Editor} {w : Workspace}
    (hc : s.workspace.Continues w d.current) : (s.withEditor i d w).Sound where
  workspace := hc.sound
  current_lt := by
    intro x hx
    obtain ⟨j, hj⟩ := Array.mem_iff_getElem?.1 hx
    rw [show (s.withEditor i d w).editors = s.editors.modify i fun _ => d from rfl,
      Array.getElem?_modify] at hj
    -- An editor is the one that moved on, or it holds what it held before.
    by_cases hij : i = j
    · rw [if_pos hij] at hj
      obtain ⟨_, _, rfl⟩ := Option.map_eq_some_iff.1 hj
      exact hc.version_lt
    · rw [if_neg hij] at hj
      exact Nat.lt_of_lt_of_le (h.current_lt x (Array.mem_of_getElem? hj)) hc.size_le

theorem openEditor (h : s.Sound) {v : VersionId} (hv : v < s.workspace.versions.size) :
    (s.openEditor v).2.Sound where
  workspace := h.workspace
  current_lt := by
    intro d hd
    obtain hd | rfl := Array.mem_push.1 hd
    · exact h.current_lt d hd
    · exact hv

theorem current_editor_lt (h : s.Sound) {i : EditorId} (hi : i < s.editors.size) :
    (s.editor i).current < s.workspace.versions.size := by
  unfold Session.editor
  rw [Array.getD_eq_getD_getElem?, Array.getElem?_eq_getElem hi]
  exact h.current_lt _ (Array.getElem_mem hi)

/-- A call that does not refer to what is there leaves the session as it was. -/
theorem guarded (h : s.Sound) {p : Prop} [Decidable p] {s' : Session} (h' : p → s'.Sound) :
    (if p then s' else s).Sound := by
  by_cases hp : p
  · rw [if_pos hp]
    exact h' hp
  · rw [if_neg hp]
    exact h

theorem attempt (h : s.Sound) {α : Type} {r : Except EditError (α × Session)}
    (h' : ∀ x s', r = .ok (x, s') → s'.Sound) : (s.attempt r).Sound := by
  cases r with
  | error err => exact h
  | ok done => exact h' done.1 done.2 rfl

/-- **One call.** -/
theorem serve (h : s.Sound) (c : Call) : (s.serve c).Sound := by
  cases c with
  | request r =>
      exact h.withWorkspace (Workspace.serve_forget h.workspace r).2.2
        (s.workspace.size_le_serve r)
  | performAll v commands =>
      refine h.guarded fun hv => ?_
      have hc := h.workspace.performAll hv commands
      exact h.withWorkspace hc.sound hc.size_le
  | openEditor v => exact h.guarded h.openEditor
  | editIn i e =>
      refine h.guarded fun hi => h.attempt fun added s' hedit => ?_
      obtain ⟨step, hstep, hdone⟩ := bind_eq_ok.1 hedit
      cases hdone
      exact h.withEditor i (Editor.perform_continues h.workspace (h.current_editor_lt hi) hstep)
  | addStatesIn i names =>
      refine h.guarded fun hi => h.attempt fun ids s' hadd => ?_
      obtain ⟨⟨ids, d, w⟩, hadded, hdone⟩ := bind_eq_ok.1 hadd
      cases hdone
      exact h.withEditor i
        (Editor.addStates_continues h.workspace (h.current_editor_lt hi) hadded)
  | performAllIn i commands =>
      refine h.guarded fun hi => ?_
      exact h.withEditor i
        (Editor.performAll_continues h.workspace (h.current_editor_lt hi) commands)

/-- **All calls.** -/
theorem serveAll (h : s.Sound) (calls : List Call) : (s.serveAll calls).Sound := by
  induction calls generalizing s with
  | nil => exact h
  | cons c rest ih => exact ih (h.serve c)

end Sound

/-! ## §5. Every automaton is well-formed. -/

/-- **Whatever a caller does, every automaton is well-formed.**  In any session its
ids are positive and below the ids that its lineage has left; the start and the
accepting states are states; the names and the rows have exactly the states as keys;
edges lead to states and match something; and an explicit alphabet does not have the
empty symbol. -/
theorem wellFormed_of_calls (calls : List Call) {x : Version}
    (hx : x ∈ (empty.serveAll calls).workspace.versions) :
    let a := x.content.automaton
    (∀ s ∈ a.states, 0 < s ∧ s < ((empty.serveAll calls).workspace.supply x.lineage).next)
      ∧ (∀ s, a.start = some s → s ∈ a.states)
      ∧ (∀ s ∈ a.accept, s ∈ a.states)
      ∧ a.names.keys = a.states
      ∧ a.table.keys = a.states
      ∧ (∀ o t g, a.table.label? o t = some g → t ∈ a.states ∧ ∃ symbol, symbol ∈ g)
      ∧ (∀ g, a.alphabet = some g → Symbol.empty ∉ g) := by
  intro a
  obtain ⟨v, hv⟩ := Array.mem_iff_getElem?.1 hx
  have hversion := (sound_empty.serveAll calls).workspace v x hv
  obtain ⟨hwf, hbelow⟩ := hversion.inLineage.suppliedBy
  refine ⟨fun s hs => ⟨hwf.positive s hs, hbelow s hs⟩, hwf.start_mem, hwf.accept_subset,
    hwf.keys_names, hwf.keys_table, ?_, hwf.alphabet_chars⟩
  intro o t g hl
  exact ⟨hwf.target_mem o t g hl, SymbolSet.exists_mem (hwf.label_nonempty o t g hl)⟩

/-- Three states are added in an editor; the third is trimmed away. -/
def threeStates : List Call :=
  [.request (.create .nothing), .openEditor 0, .addStatesIn 0 [.null, .null, .null],
    .editIn 0 (.setStart (.id 1)),
    .performAllIn 0 [.edit (.setTransition (.id 1) (.id 2) (.symbols .letterA)),
      .edit (.setAccept (.id 2) true), .edit .trim]]

/-- The state that was trimmed away left nothing behind but its id. -/
theorem wellFormed_of_calls_threeStates :
    ∃ x ∈ (empty.serveAll threeStates).workspace.versions,
      x.content.automaton.states.toList = [1, 2]
        ∧ ((empty.serveAll threeStates).workspace.supply x.lineage).next = 4
        ∧ x.content.automaton.names.keys = x.content.automaton.states
        ∧ x.content.automaton.table.keys = x.content.automaton.states
        ∧ ∀ o t g, x.content.automaton.table.label? o t = some g →
            t ∈ x.content.automaton.states ∧ ∃ symbol, symbol ∈ g := by
  have hsize : 7 < (empty.serveAll threeStates).workspace.versions.size := by decide +kernel
  have hlast : (empty.serveAll threeStates).workspace.version 7
      ∈ (empty.serveAll threeStates).workspace.versions := by
    rw [Workspace.version_eq (Array.getElem?_eq_getElem hsize)]
    exact Array.getElem_mem hsize
  obtain ⟨_, _, _, hnames, hrows, hedges, _⟩ := wellFormed_of_calls threeStates hlast
  exact ⟨_, hlast, by decide +kernel, by decide +kernel, hnames, hrows, hedges⟩

end Session

end FiniteAutomata
