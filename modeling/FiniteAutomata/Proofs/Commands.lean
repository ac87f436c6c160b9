/-
  FiniteAutomata.Proofs.Commands
  ──────────────────────────────
  **COMMANDS, EDITORS AND EDITS ONE BY ONE AGREE, ALSO WHEN ONE FAILS.**

  `Automaton.editAll` makes the edits one by one on the automaton by itself, where
  nothing is remembered.  What commands come to in an editor is compared with it, and
  commands without an editor are the same as in one that is opened for them:

      Workspace.Holds.perform_cases      one edit
      Editor.performAll_holds            an editor follows the edits
      Editor.performAll_fails            up to the command that fails
      Workspace.performAll_eq            and so do commands without an editor
      Editor.current_performAll_eq_iff   an editor is where it was opened as long as
                                         every command answers its receiver

  Main statement: `Workspace.commands_agree`, for any two sound workspaces.
-/
import FiniteAutomata.Proofs.Allocation

namespace FiniteAutomata

/-! ## §1. Edits one by one. -/

namespace Automaton

/-- Make edits one by one, each on what the one before it answers; the ids that are
left are answered too. -/
def editAll (a : Automaton) (supply : IdSupply) :
    List Command → Except EditError Automaton × IdSupply
  | [] => (.ok a, supply)
  | .other value :: _ => (.error (.notACommand value), supply)
  | .edit e :: rest =>
      match a.edit supply e with
      | .ok d => (d.automaton.getD a).editAll d.supply rest
      | .error err => (.error err, supply)

/-- If one fails, those before it do not, and it takes no id. -/
theorem editAll_eq_error {a : Automaton} {supply left : IdSupply} {commands : List Command}
    {err : EditError} (h : a.editAll supply commands = (.error err, left)) :
    ∃ before c after b, commands = before ++ c :: after
      ∧ a.editAll supply before = (.ok b, left) ∧ b.editAll left [c] = (.error err, left) := by
  induction commands generalizing a supply with
  | nil => cases h
  | cons c rest ih =>
      cases c with
      | other value =>
          cases h
          exact ⟨[], _, rest, a, rfl, rfl, rfl⟩
      | edit e =>
          unfold editAll at h
          cases hedit : a.edit supply e with
          | error err' =>
              rw [hedit] at h
              cases h
              refine ⟨[], .edit e, rest, a, rfl, rfl, ?_⟩
              rw [editAll, hedit]
          | ok d =>
              rw [hedit] at h
              obtain ⟨before, c, after, b, rfl, hbefore, hc⟩ := ih h
              refine ⟨.edit e :: before, c, after, b, rfl, ?_, hc⟩
              rw [editAll, hedit]
              exact hbefore

end Automaton

/-! ## §2. One command. -/

namespace Workspace

variable {w : Workspace} {v : VersionId} {l : LineageId} {a : Automaton} {supply : IdSupply}

/-- `w.Holds v l a supply`: the version `v` is the automaton `a` of the lineage `l`,
which has `supply` left. -/
structure Holds (w : Workspace) (v : VersionId) (l : LineageId) (a : Automaton)
    (supply : IdSupply) : Prop where
  version_lt : v < w.versions.size
  automaton_eq : w.automaton v = a
  lineage_eq : (w.version v).lineage = l
  supply_eq : w.supply l = supply

theorem holds_self (hv : v < w.versions.size) :
    w.Holds v (w.version v).lineage (w.automaton v) (w.supply (w.version v).lineage) :=
  ⟨hv, rfl, rfl, rfl⟩

theorem perform_of_failed (hv : v < w.versions.size) {e : Edit} {err : EditError}
    (h : (w.serve (.perform v e)).1 = .failed err) : w.perform v e = .error err := by
  rw [serve_perform hv, servePerform] at h
  cases hdone : w.perform v e with
  | error err' =>
      rw [hdone] at h
      injection h with h
      rw [h]
  | ok done =>
      rw [hdone] at h
      cases h

/-- What is answered to a request is what the edit answers. -/
theorem perform_of_performed (hv : v < w.versions.size) {e : Edit} {u : VersionId}
    {added : Option StateId} (h : (w.serve (.perform v e)).1 = .performed u added) :
    ∃ done, w.perform v e = .ok done ∧ done.version = u
      ∧ done.workspace = (w.serve (.perform v e)).2 := by
  rw [serve_perform hv, servePerform] at h ⊢
  cases hdone : w.perform v e with
  | error err =>
      rw [hdone] at h
      cases h
  | ok done =>
      rw [hdone] at h
      injection h with hversion
      exact ⟨done, rfl, hversion, rfl⟩

/-- **One edit.** -/
theorem Holds.perform_cases (h : w.Holds v l a supply) (hw : w.Sound) (e : Edit) :
    (∃ err, a.edit supply e = .error err ∧ w.perform v e = .error err)
      ∨ ∃ d done, a.edit supply e = .ok d ∧ w.perform v e = .ok done ∧ done.workspace.Sound
          ∧ done.workspace.Holds done.version l (d.automaton.getD a) d.supply := by
  obtain ⟨hv, rfl, rfl, rfl⟩ := h
  have hx : w.versions[v]? = some (w.version v) := getElem?_version hv
  obtain ⟨err, hedit, hresponse, _⟩ | ⟨d, u, hedit, hd⟩ := hw.serve_perform_cases hx e
  · exact Or.inl ⟨err, hedit, perform_of_failed hv hresponse⟩
  · obtain ⟨done, hdone, rfl, hworkspace⟩ := perform_of_performed hv hd.response_eq
    have hc := hw.perform hv hdone
    have hsupply := hd.supply_eq (hw v _ hx).lineage_lt
    rw [if_pos rfl] at hsupply
    have hheld : done.workspace.Holds done.version (w.version v).lineage
        (d.automaton.getD (w.automaton v)) d.supply := by
      refine ⟨hc.version_lt, ?_, ?_, ?_⟩ <;> rw [hworkspace]
      · exact hd.automaton_eq
      · exact hd.lineage_eq
      · exact hsupply
    exact Or.inr ⟨d, done, hedit, hdone, hc.sound, hheld⟩

/-- An edit that succeeds on the automaton of a version succeeds on the version. -/
theorem Sound.exists_perform (hw : w.Sound) (hv : v < w.versions.size) {e : Edit}
    {d : Edited} (h : (w.automaton v).edit (w.supply (w.version v).lineage) e = .ok d) :
    ∃ done, w.perform v e = .ok done
      ∧ done.workspace.automaton done.version = d.automaton.getD (w.automaton v) := by
  obtain ⟨err, hfails, _⟩ | ⟨d', done, hedit, hdone, _, hd⟩ :=
    (holds_self hv).perform_cases hw e
  · cases h.symm.trans hfails
  · cases h.symm.trans hedit
    exact ⟨done, hdone, hd.automaton_eq⟩

end Workspace

/-! ## §3. Commands in an editor. -/

namespace Editor

variable {w : Workspace} {d : Editor} {l : LineageId} {a : Automaton} {supply : IdSupply}

/-- A command in an editor is the command on the version that the editor holds. -/
theorem performCommand_eq (d : Editor) (w : Workspace) (c : Command) :
    d.performCommand w c = (w.performCommand d.current c).map fun done =>
      ⟨{ d with current := done.version }, done.added, done.workspace⟩ := by
  cases c with
  | other value => rfl
  | edit e =>
      show (w.perform d.current e >>= fun done => _) = (w.perform d.current e).map _
      cases w.perform d.current e <;> rfl

theorem performAll_cons_ok {c : Command} {done : Workspace.Performed}
    (h : w.performCommand d.current c = .ok done) (rest : List Command) :
    d.performAll w (c :: rest)
      = { d with current := done.version }.performAll done.workspace rest := by
  rw [performAll, performCommand_eq, h]
  rfl

theorem performAll_cons_error {c : Command} {err : EditError}
    (h : w.performCommand d.current c = .error err) (rest : List Command) :
    d.performAll w (c :: rest) = ⟨d, w, some err⟩ := by
  rw [performAll, performCommand_eq, h]
  rfl

/-- The version that the editor holds, or the failure. -/
def Progress.answer (p : Progress) : Except EditError VersionId :=
  match p.failure with
  | none => .ok p.editor.current
  | some err => .error err

/-- Commands answer what they come to in an editor. -/
theorem fst_performAll (d : Editor) (w : Workspace) (commands : List Command) :
    (w.performAll d.current commands).1 = (d.performAll w commands).answer := by
  induction commands generalizing d w with
  | nil => rfl
  | cons c rest ih =>
      rw [Workspace.performAll]
      cases hc : w.performCommand d.current c with
      | error err =>
          rw [performAll_cons_error hc]
          rfl
      | ok done =>
          rw [performAll_cons_ok hc]
          exact ih { d with current := done.version } done.workspace

/-- Commands behind others begin with what those leave. -/
theorem performAll_append (d : Editor) (w : Workspace) {before : List Command}
    (hbefore : (d.performAll w before).failure = none) (after : List Command) :
    d.performAll w (before ++ after)
      = (d.performAll w before).editor.performAll (d.performAll w before).workspace after := by
  induction before generalizing d w with
  | nil => rfl
  | cons c rest ih =>
      cases hc : w.performCommand d.current c with
      | error err =>
          rw [performAll_cons_error hc] at hbefore
          cases hbefore
      | ok done =>
          rw [performAll_cons_ok hc] at hbefore ⊢
          rw [List.cons_append, performAll_cons_ok hc]
          exact ih { d with current := done.version } done.workspace hbefore

/-- An editor follows the edits made one by one as long as none fails. -/
theorem performAll_holds (h : w.Holds d.current l a supply) (hw : w.Sound)
    {commands : List Command} {b : Automaton} {left : IdSupply}
    (hall : a.editAll supply commands = (.ok b, left)) :
    (d.performAll w commands).failure = none
      ∧ (d.performAll w commands).workspace.Sound
      ∧ (d.performAll w commands).workspace.Holds (d.performAll w commands).editor.current
          l b left := by
  induction commands generalizing d w a supply with
  | nil =>
      cases hall
      exact ⟨rfl, hw, h⟩
  | cons c rest ih =>
      cases c with
      | other value => cases hall
      | edit e =>
          unfold Automaton.editAll at hall
          obtain ⟨err, hedit, _⟩ | ⟨dd, done, hedit, hdone, hsound, hheld⟩ := h.perform_cases hw e
          · rw [hedit] at hall
            cases hall
          · rw [hedit] at hall
            rw [performAll_cons_ok (c := .edit e) hdone]
            exact ih (d := { d with current := done.version }) hheld hsound hall

/-- A command that fails by itself fails in an editor and leaves it as it is. -/
theorem performAll_cons_fails (h : w.Holds d.current l a supply) (hw : w.Sound) {c : Command}
    {err : EditError} {left : IdSupply} (hc : a.editAll supply [c] = (.error err, left))
    (after : List Command) : d.performAll w (c :: after) = ⟨d, w, some err⟩ := by
  refine performAll_cons_error ?_ after
  cases c with
  | other value =>
      cases hc
      rfl
  | edit e =>
      unfold Automaton.editAll at hc
      obtain ⟨err', hedit, hfailed⟩ | ⟨dd, done, hedit, _⟩ := h.perform_cases hw e
      · rw [hedit] at hc
        cases hc
        exact hfailed
      · rw [hedit] at hc
        cases hc

/-- **A command that fails.**  The editor is left as the commands before it leave it. -/
theorem performAll_fails (h : w.Holds d.current l a supply) (hw : w.Sound)
    {before : List Command} {c : Command} {b : Automaton} {err : EditError} {left : IdSupply}
    (hbefore : a.editAll supply before = (.ok b, left))
    (hc : b.editAll left [c] = (.error err, left)) (after : List Command) :
    d.performAll w (before ++ c :: after)
      = { d.performAll w before with failure := some err } := by
  obtain ⟨hdone, hsound, hheld⟩ := performAll_holds h hw hbefore
  rw [performAll_append d w hdone, performAll_cons_fails hheld hsound hc]

end Editor

/-! ## §4. What an editor was opened on. -/

namespace Workspace

/-- A command that is applied, by the version it is applied to and the version that
it answers. -/
structure Application where
  receiver : VersionId
  answer : VersionId
  deriving DecidableEq

/-- The commands that are applied, up to the first that fails. -/
def applications (w : Workspace) (v : VersionId) : List Command → List Application
  | [] => []
  | c :: rest =>
      match w.performCommand v c with
      | .ok done => ⟨v, done.version⟩ :: done.workspace.applications done.version rest
      | .error _ => []

variable {w : Workspace} {v : VersionId}

/-- A command answers its receiver, or a version behind all others. -/
theorem performCommand_cases {c : Command} {done : Performed}
    (h : w.performCommand v c = .ok done) :
    done.version = v ∧ done.workspace.versions.size = w.versions.size
      ∨ done.version = w.versions.size
        ∧ done.workspace.versions.size = w.versions.size + 1 := by
  cases c with
  | edit e => exact perform_cases h
  | other value => cases h

end Workspace

namespace Editor

variable {w : Workspace} {d : Editor}

theorem origin_performAll (d : Editor) (w : Workspace) (commands : List Command) :
    (d.performAll w commands).editor.origin = d.origin := by
  induction commands generalizing d w with
  | nil => rfl
  | cons c rest ih =>
      cases hc : w.performCommand d.current c with
      | error err => rw [performAll_cons_error hc]
      | ok done =>
          rw [performAll_cons_ok hc]
          exact ih { d with current := done.version } done.workspace

/-- An editor stays where it is, or moves behind all versions that there were. -/
theorem current_performAll_cases (hd : d.current < w.versions.size) (commands : List Command) :
    (d.performAll w commands).editor.current = d.current
        ∧ (∀ q ∈ w.applications d.current commands, q.answer = q.receiver)
      ∨ w.versions.size ≤ (d.performAll w commands).editor.current
        ∧ ∃ q ∈ w.applications d.current commands, q.answer ≠ q.receiver := by
  induction commands generalizing d w with
  | nil => exact Or.inl ⟨rfl, fun _ hq => absurd hq List.not_mem_nil⟩
  | cons c rest ih =>
      rw [Workspace.applications]
      cases hc : w.performCommand d.current c with
      | error err =>
          rw [performAll_cons_error hc]
          exact Or.inl ⟨rfl, fun _ hq => absurd hq List.not_mem_nil⟩
      | ok done =>
          rw [performAll_cons_ok hc]
          obtain ⟨hversion, hsize⟩ | ⟨hversion, hsize⟩ := Workspace.performCommand_cases hc
          · -- The command answers its receiver, and the editor has not moved.
            have hlater := ih (d := { d with current := done.version }) (w := done.workspace)
              (by rw [hversion, hsize]; exact hd)
            rw [hsize] at hlater
            obtain ⟨hcurrent, hall⟩ | ⟨hle, q, hq, hne⟩ := hlater
            · refine Or.inl ⟨hcurrent.trans hversion, ?_⟩
              exact List.forall_mem_cons.2 ⟨hversion, hall⟩
            · exact Or.inr ⟨hle, q, List.mem_cons_of_mem _ hq, hne⟩
          · -- The command answers a new version, and no later one is older.
            have hlater := ih (d := { d with current := done.version }) (w := done.workspace)
              (by rw [hversion, hsize]; exact Nat.lt_succ_self _)
            have hmoved : done.version ≠ d.current := hversion ▸ Nat.ne_of_gt hd
            refine Or.inr ⟨?_, _, List.mem_cons_self, hmoved⟩
            obtain ⟨hcurrent, _⟩ | ⟨hle, _⟩ := hlater
            · exact Nat.le_of_eq (hcurrent.trans hversion).symm
            · exact Nat.le_trans (hsize ▸ Nat.le_succ _) hle

/-- **What an editor was opened on.**  It holds it as long as every command answers
its receiver. -/
theorem current_performAll_eq_iff (hd : d.current < w.versions.size) (commands : List Command) :
    (d.performAll w commands).editor.current = d.current
      ↔ ∀ q ∈ w.applications d.current commands, q.answer = q.receiver := by
  obtain ⟨hcurrent, hall⟩ | ⟨hle, q, hq, hne⟩ := current_performAll_cases hd commands
  · exact iff_of_true hcurrent hall
  · exact iff_of_false (Nat.ne_of_gt (Nat.lt_of_lt_of_le hd hle)) fun hall => hne (hall q hq)

end Editor

/-! ## §5. All three ways. -/

namespace Workspace

variable {w : Workspace} {v : VersionId} {l : LineageId} {a b : Automaton}
  {supply left : IdSupply}

/-- Commands are the commands in an editor that is opened for them. -/
theorem performAll_eq (w : Workspace) (v : VersionId) (commands : List Command) :
    w.performAll v commands = (((Editor.openOn v).performAll w commands).answer,
      ((Editor.openOn v).performAll w commands).workspace) :=
  Prod.ext (Editor.fst_performAll (.openOn v) w commands)
    (Editor.workspace_performAll (.openOn v) w commands).symm

/-- Commands follow the edits made one by one as long as none fails. -/
theorem Holds.performAll (h : w.Holds v l a supply) (hw : w.Sound) {commands : List Command}
    (hall : a.editAll supply commands = (.ok b, left)) :
    ∃ u, (w.performAll v commands).1 = .ok u ∧ (w.performAll v commands).2.Holds u l b left := by
  obtain ⟨hnone, _, hheld⟩ := Editor.performAll_holds (d := .openOn v) h hw hall
  rw [performAll_eq, Editor.Progress.answer, hnone]
  exact ⟨_, rfl, hheld⟩

/-- A command that fails leaves the workspace as the commands before it leave it. -/
theorem Holds.performAll_fails (h : w.Holds v l a supply) (hw : w.Sound) {before : List Command}
    {c : Command} {err : EditError} (hbefore : a.editAll supply before = (.ok b, left))
    (hc : b.editAll left [c] = (.error err, left)) (after : List Command) :
    w.performAll v (before ++ c :: after) = (.error err, (w.performAll v before).2) := by
  rw [performAll_eq, Editor.performAll_fails (d := .openOn v) h hw hbefore hc after,
    performAll_eq w v before]
  rfl

/-- **Commands, editors and edits one by one agree.**  Let a version `v` of one sound
workspace and a version `v'` of another be the same automaton with the same ids left;
what any calls lead to is sound (`Session.Sound.serveAll`).  If the edits can be made
one by one, then commands on `v` and commands in an editor opened on `v'` come to what
they come to.  If one of them fails, then both fail for the same reason, the editor
holds what the commands before that one answer, and just the ids that those take are
taken.  Either way the editor is unmodified if and only if every command that was applied
answered its receiver. -/
theorem commands_agree {w w' : Workspace} (hw : w.Sound) (hw' : w'.Sound) {v v' : VersionId}
    {l l' : LineageId} {a : Automaton} {supply : IdSupply} (hv : w.Holds v l a supply)
    (hv' : w'.Holds v' l' a supply) (commands : List Command) :
    let applied := w.performAll v commands
    let built := (Editor.openOn v').performAll w' commands
    (∀ b left, a.editAll supply commands = (.ok b, left) →
        (∃ u, applied.1 = .ok u ∧ applied.2.Holds u l b left)
          ∧ built.failure = none ∧ built.workspace.Holds built.editor.current l' b left)
      ∧ (∀ err left, a.editAll supply commands = (.error err, left) →
        applied.1 = .error err ∧ applied.2.supply l = left ∧ built.failure = some err
          ∧ ∃ before c after b u, commands = before ++ c :: after
            ∧ a.editAll supply before = (.ok b, left) ∧ b.editAll left [c] = (.error err, left)
            ∧ (w.performAll v before).1 = .ok u ∧ (w.performAll v before).2.Holds u l b left
            ∧ built.workspace.Holds built.editor.current l' b left)
      ∧ (built.editor.isModified = false
          ↔ ∀ q ∈ w'.applications v' commands, q.answer = q.receiver) := by
  intro applied built
  refine ⟨?_, ?_, ?_⟩
  · intro b left hall
    obtain ⟨hnone, _, hheld⟩ := Editor.performAll_holds (d := .openOn v') hv' hw' hall
    exact ⟨hv.performAll hw hall, hnone, hheld⟩
  · intro err left hall
    obtain ⟨before, c, after, b, rfl, hbefore, hc⟩ := Automaton.editAll_eq_error hall
    obtain ⟨u, hanswer, hheld⟩ := hv.performAll hw hbefore
    obtain ⟨_, _, hheld'⟩ := Editor.performAll_holds (d := .openOn v') hv' hw' hbefore
    have happlied : applied = _ := hv.performAll_fails hw hbefore hc after
    have hbuilt : built = _ := Editor.performAll_fails (d := .openOn v') hv' hw' hbefore hc after
    rw [happlied, hbuilt]
    exact ⟨rfl, hheld.supply_eq, rfl, before, c, after, b, u, rfl, hbefore, hc, hanswer, hheld,
      hheld'⟩
  · have horigin : built.editor.origin = v' := Editor.origin_performAll (.openOn v') w' commands
    rw [Editor.isModified, horigin, decide_eq_false_iff_not, not_ne_iff]
    exact Editor.current_performAll_eq_iff (d := .openOn v') hv'.version_lt commands

/-- A state is added, and then something is handed in that is not a command. -/
def refused : List Command := [.edit (.addState .null), .other (.str "x"), .edit .trim]

/-- The only version of one workspace and the second version of another are both empty.
Before the failure a state is added on either side, so one id is taken. -/
theorem commands_agree_refused :
    let w := (Session.empty.serveAll [.request (.create .nothing)]).workspace
    let w' := (Session.empty.serveAll
      [.request (.create .nothing), .request (.create .nothing)]).workspace
    let built := (Editor.openOn 1).performAll w' refused
    w.Holds 0 0 .empty .fresh ∧ w'.Holds 1 1 .empty .fresh
      ∧ (∃ u, (w.performAll 0 (refused.take 1)).1 = .ok u
        ∧ (w.performAll 0 (refused.take 1)).2.automaton u = Automaton.empty.addState 1 .null)
      ∧ (w.performAll 0 refused).1 = .error (.notACommand (.str "x"))
      ∧ (w.performAll 0 refused).2.supply 0 = IdSupply.fresh.allocate.2
      ∧ built.failure = some (.notACommand (.str "x"))
      ∧ (∃ b, built.workspace.Holds built.editor.current 1 b IdSupply.fresh.allocate.2)
      ∧ built.editor.isModified ≠ false := by
  intro w w' built
  have hw : w.Sound := (Session.sound_empty.serveAll _).workspace
  have hw' : w'.Sound := (Session.sound_empty.serveAll _).workspace
  have hv : w.Holds 0 0 .empty .fresh := ⟨by decide, rfl, rfl, rfl⟩
  have hv' : w'.Holds 1 1 .empty .fresh := ⟨by decide, rfl, rfl, rfl⟩
  obtain ⟨hdone, _, _⟩ := commands_agree hw hw' hv hv' (refused.take 1)
  obtain ⟨⟨u, hanswer, hheld⟩, _⟩ := hdone _ _ rfl
  obtain ⟨_, hfailed, hmodified⟩ := commands_agree hw hw' hv hv' refused
  obtain ⟨happlied, hsupply, hfailure, _, _, _, b, _, _, _, _, _, _, hbuilt⟩ := hfailed _ _ rfl
  refine ⟨hv, hv', ⟨u, hanswer, hheld.automaton_eq⟩, happlied, hsupply, hfailure, ⟨b, hbuilt⟩, ?_⟩
  -- The first command answers the third version.
  have hmoved : (⟨1, 2⟩ : Application) ∈ w'.applications 1 refused := List.mem_cons_self
  intro hstays
  exact absurd (hmodified.1 hstays _ hmoved) (by decide)

end Workspace

end FiniteAutomata
