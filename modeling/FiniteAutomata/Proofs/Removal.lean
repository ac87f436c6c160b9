/-
  FiniteAutomata.Proofs.Removal
  ─────────────────────────────
  **A REMOVED STATE LEAVES NO TRACE.**

  What concerns one state only shows at that state: its name, whether it accepts, and
  the edges from it and to it.  `EditedAt q a b` says that two automata differ nowhere
  else, and it is kept from edit to edit.  To remove the state takes all of that away:

      EditedAt.dropState_eq     what was edited at a state only is the same without it
      dropState_addState        a state that is added and removed
      editedAt_of_edit          one edit
      Leads.editedAt            edits on edits

  Main statement: `Session.removed_without_trace`, for any version of any session and
  whatever is requested meanwhile.
-/
import FiniteAutomata.Proofs.Extensionality
import FiniteAutomata.Proofs.LastAlphabet

namespace FiniteAutomata

/-- The edit is about one state only: an edge from it or to it, whether it accepts, or
its name. -/
def Edit.ConcernsOnly (q : StateId) : Edit → Prop
  | .setTransition o t _ | .removeTransition o t => o = .id q ∨ t = .id q
  | .setTransitionTarget o _ _ => o = .id q
  | .setAccept s _ | .toggleAccept s | .setName s _ => s = .id q
  | _ => False

namespace Automaton

variable {a b c : Automaton} {q : StateId}

/-! ## §1. Automata that differ at one state. -/

/-- `a.EditedAt q b`: the automata have the same states and differ at most in the name
of `q`, in whether it accepts, and in the edges at it. -/
structure EditedAt (q : StateId) (a b : Automaton) : Prop where
  states_eq : b.states = a.states
  start_eq : b.start = a.start
  alphabet_eq : b.alphabet = a.alphabet
  name_eq : ∀ s, s ≠ q → b.names.get? s = a.names.get? s
  accept_iff : ∀ s, s ≠ q → (s ∈ b.accept ↔ s ∈ a.accept)
  label?_eq : ∀ o t, o ≠ q → t ≠ q → b.table.label? o t = a.table.label? o t

namespace EditedAt

theorem refl (q : StateId) (a : Automaton) : a.EditedAt q a where
  states_eq := rfl
  start_eq := rfl
  alphabet_eq := rfl
  name_eq _ _ := rfl
  accept_iff _ _ := Iff.rfl
  label?_eq _ _ _ _ := rfl

theorem trans (h : a.EditedAt q b) (h' : b.EditedAt q c) : a.EditedAt q c where
  states_eq := h'.states_eq.trans h.states_eq
  start_eq := h'.start_eq.trans h.start_eq
  alphabet_eq := h'.alphabet_eq.trans h.alphabet_eq
  name_eq s hs := (h'.name_eq s hs).trans (h.name_eq s hs)
  accept_iff s hs := (h'.accept_iff s hs).trans (h.accept_iff s hs)
  label?_eq o t ho ht := (h'.label?_eq o t ho ht).trans (h.label?_eq o t ho ht)

/-- **What was edited at a state only is the same without it.** -/
theorem dropState_eq (h : a.EditedAt q b) (ha : a.WellFormed) (hb : b.WellFormed) :
    b.dropState q = a.dropState q := by
  refine (hb.dropState q).ext (ha.dropState q) ?_ ?_ ?_ ?_ h.alphabet_eq
  · show (if b.start = some q then none else b.start) = if a.start = some q then none else a.start
    rw [h.start_eq]
  · intro s
    show (b.names.erase q).get? s = (a.names.erase q).get? s
    rw [OrderedMap.get?_erase, OrderedMap.get?_erase]
    by_cases hs : s = q
    · rw [if_pos hs, if_pos hs]
    · rw [if_neg hs, if_neg hs, h.name_eq s hs]
  · intro s
    show s ∈ b.accept.erase q ↔ s ∈ a.accept.erase q
    rw [OrderedSet.mem_erase, OrderedSet.mem_erase]
    exact and_congr_left (h.accept_iff s)
  · intro o t
    rw [label?_dropState, label?_dropState]
    by_cases hot : o = q ∨ t = q
    · rw [if_pos hot, if_pos hot]
    · obtain ⟨ho, ht⟩ := not_or.1 hot
      rw [if_neg hot, if_neg hot, h.label?_eq o t ho ht]

end EditedAt

/-- **A state that is added and removed** leaves the automaton as it was. -/
theorem WellFormed.dropState_addState (h : a.WellFormed) (hpos : 0 < q) (hq : q ∉ a.states)
    (name : Json) : (a.addState q name).dropState q = a := by
  refine ((h.addState hpos name).dropState q).ext h ?_ ?_ ?_ ?_ rfl
  · exact if_neg fun hstart => hq (h.start_mem q hstart)
  · intro s
    show ((a.names.insert q name).erase q).get? s = a.names.get? s
    rw [OrderedMap.get?_erase, OrderedMap.get?_insert]
    by_cases hs : s = q
    · rw [if_pos hs, hs]
      exact (h.get?_names_eq_none hq).symm
    · rw [if_neg hs, if_neg hs]
  · intro s
    show s ∈ a.accept.erase q ↔ s ∈ a.accept
    rw [OrderedSet.mem_erase]
    exact and_iff_left_of_imp fun hs e => hq (e ▸ h.accept_subset s hs)
  · intro o t
    rw [label?_dropState, label?_addState]
    by_cases ho : o = q
    · rw [if_pos (Or.inl ho), ho, h.label?_eq_none hq]
    · by_cases ht : t = q
      · -- Nothing leads to what is no state.
        rw [if_pos (Or.inr ht), ht]
        cases hl : a.table.label? o q with
        | none => rfl
        | some g => exact absurd (h.target_mem o q g hl) hq
      · rw [if_neg (not_or.2 ⟨ho, ht⟩), if_neg ho]

/-! ## §2. One edit. -/

/-- Other edges at one origin show at the state if it is the origin, or if they differ
only in those that lead there. -/
theorem editedAt_withRow {o : StateId} {r : Row}
    (h : o ≠ q → ∀ t, t ≠ q → r.get? t = a.table.label? o t) : a.EditedAt q (a.withRow o r) where
  states_eq := rfl
  start_eq := rfl
  alphabet_eq := rfl
  name_eq _ _ := rfl
  accept_iff _ _ := Iff.rfl
  label?_eq p t hp ht := by
    rw [label?_withRow]
    by_cases hpo : p = o
    · subst hpo
      rw [if_pos rfl, h hp t ht]
    · rw [if_neg hpo]

theorem editedAt_of_dropEdge? {o t : StateId} (h : a.dropEdge? o t = some b)
    (hq : o = q ∨ t = q) : a.EditedAt q b := by
  obtain ⟨_, rfl⟩ := dropEdge?_eq_some h
  refine editedAt_withRow fun ho s hs => ?_
  rw [OrderedMap.get?_erase, if_neg fun e => hs (e.trans (hq.resolve_left ho))]
  rfl

theorem editedAt_of_relabel? {o t : StateId} {g : SymbolSet} (h : a.relabel? o t g = some b)
    (hq : o = q ∨ t = q) : a.EditedAt q b := by
  obtain ⟨_, hb⟩ | ⟨_, _, rfl⟩ := relabel?_eq_some h
  · exact editedAt_of_dropEdge? hb hq
  · refine editedAt_withRow fun ho s hs => ?_
    rw [OrderedMap.get?_insert, if_neg fun e => hs (e.trans (hq.resolve_left ho))]
    rfl

theorem editedAt_of_moveEdge? {x y : StateId} (h : a.moveEdge? q x y = some b) :
    a.EditedAt q b := by
  obtain ⟨_, g, _, rfl⟩ := moveEdge?_eq_some h
  exact editedAt_withRow fun hne => absurd rfl hne

theorem editedAt_of_setAccept? {accept : Bool} (h : a.setAccept? (.id q) accept = some b) :
    a.EditedAt q b := by
  obtain ⟨s, hs, rfl⟩ := setAccept?_eq_some h
  cases (resolve?_eq_some_iff.1 hs).1
  refine { EditedAt.refl q a with accept_iff := fun p hp => ?_ }
  cases accept with
  | true => exact OrderedSet.mem_insert.trans (or_iff_right hp)
  | false => exact OrderedSet.mem_erase.trans (and_iff_left hp)

theorem editedAt_of_setName? {name : Json} (h : a.setName? (.id q) name = some b) :
    a.EditedAt q b := by
  obtain ⟨s, hs, rfl⟩ := setName?_eq_some h
  cases (resolve?_eq_some_iff.1 hs).1
  exact { EditedAt.refl q a with
    name_eq := fun p hp => OrderedMap.get?_insert_of_ne _ hp name }

/-- A change that shows at the state only where it answers something shows there only. -/
theorem editedAt_getD {result : Option Automaton}
    (h : ∀ b, result = some b → a.EditedAt q b) : a.EditedAt q (result.getD a) := by
  cases result with
  | none => exact .refl q a
  | some b => exact h b rfl

/-- The state is one end of an edge if a reference to it is. -/
theorem eq_or_eq_of_resolve? {o t : StateRef} {p s : StateId} (hp : a.resolve? o = some p)
    (hs : a.resolve? t = some s) (h : o = .id q ∨ t = .id q) : p = q ∨ s = q := by
  obtain ⟨rfl, _⟩ := resolve?_eq_some_iff.1 hp
  obtain ⟨rfl, _⟩ := resolve?_eq_some_iff.1 hs
  simpa using h

/-- **One edit.** -/
theorem editedAt_of_edit {supply : IdSupply} {e : Edit} {d : Edited}
    (he : a.edit supply e = .ok d) (hq : e.ConcernsOnly q) :
    a.EditedAt q (d.automaton.getD a) := by
  cases e with
  | setTransition o t label =>
      obtain ⟨result, hr, he⟩ := bind_eq_ok.1 he
      cases he
      refine editedAt_getD fun b hb => ?_
      subst hb
      obtain ⟨p, s, g, hp, hs, _, hb⟩ := setTransition?_eq_some (mapError_eq_ok.1 hr)
      exact editedAt_of_relabel? hb (eq_or_eq_of_resolve? hp hs hq)
  | removeTransition o t =>
      cases he
      refine editedAt_getD fun b hb => ?_
      obtain ⟨p, s, hp, hs, hb⟩ := removeTransition?_eq_some hb
      exact editedAt_of_dropEdge? hb (eq_or_eq_of_resolve? hp hs hq)
  | setTransitionTarget o x y =>
      cases he
      refine editedAt_getD fun b hb => ?_
      obtain ⟨p, s, t, hp, _, _, hb⟩ := setTransitionTarget?_eq_some hb
      have horigin : o = .id q := hq
      rw [(resolve?_eq_some_iff.1 hp).1] at horigin
      cases horigin
      exact editedAt_of_moveEdge? hb
  | setAccept s accept | toggleAccept s =>
      cases he
      cases hq
      exact editedAt_getD fun b hb => editedAt_of_setAccept? hb
  | setName s name =>
      cases he
      cases hq
      exact editedAt_getD fun b hb => editedAt_of_setName? hb
  | _ => cases hq

end Automaton

/-! ## §3. Edits on edits. -/

namespace Workspace

variable {w w' : Workspace} {v u : VersionId} {q : StateId}

/-- Edits that concern one state only show at that state only. -/
theorem Leads.editedAt {edits : List Edit} (h : w.Leads v edits w' u) (hw : w.Sound)
    (hv : v < w.versions.size) (hedits : ∀ e ∈ edits, e.ConcernsOnly q) :
    (w.automaton v).EditedAt q (w'.automaton u) := by
  induction h with
  | refl => exact .refl q _
  | meanwhile r _ ih =>
      have hc := hw.serve_continues hv r
      rw [← hw.automaton_serve hv r]
      exact ih hc.sound hc.version_lt hedits
  | edit hdone _ ih =>
      obtain ⟨he, hedits⟩ := List.forall_mem_cons.1 hedits
      have hc := hw.perform hv hdone
      obtain ⟨d, hedit, _, hautomaton⟩ := hw.perform_eq_ok hv hdone
      have hfirst := Automaton.editedAt_of_edit hedit he
      rw [← hautomaton] at hfirst
      exact hfirst.trans (ih hc.sound hc.version_lt hedits)

theorem Sound.wellFormed (hw : w.Sound) (hv : v < w.versions.size) :
    (w.automaton v).WellFormed :=
  (hw v _ (getElem?_version hv)).inLineage.suppliedBy.wellFormed

/-- A state is removed from a version that has it. -/
theorem Sound.perform_removeState (hw : w.Sound) (hv : v < w.versions.size)
    (hq : q ∈ (w.automaton v).states) :
    ∃ done, w.perform v (.removeState (.id q)) = .ok done
      ∧ done.workspace.automaton done.version = (w.automaton v).dropState q := by
  have hresolve : (w.automaton v).resolve? (.id q) = some q :=
    Automaton.resolve?_eq_some_iff.2 ⟨rfl, hq⟩
  obtain ⟨done, hdone, hd⟩ := hw.exists_perform (e := .removeState (.id q)) hv rfl
  refine ⟨done, hdone, hd.trans ?_⟩
  rw [Automaton.removeState?, hresolve]
  rfl

/-- The state that is added is a new one. -/
theorem Sound.perform_addState (hw : w.Sound) (hv : v < w.versions.size) (name : Json) :
    ∃ done q, w.perform v (.addState name) = .ok done ∧ done.added = some q
      ∧ 0 < q ∧ q ∉ (w.automaton v).states
      ∧ done.workspace.automaton done.version = (w.automaton v).addState q name := by
  have hsupplied := (hw v _ (getElem?_version hv)).inLineage.suppliedBy
  have hpos : 0 < (w.supply (w.version v).lineage).next := IdSupply.positive _
  obtain ⟨done, hdone, hadded⟩ : ∃ done, w.perform v (.addState name) = .ok done
      ∧ done.added = some (w.supply (w.version v).lineage).next := ⟨_, rfl, rfl⟩
  obtain ⟨d, hedit, _, hautomaton⟩ := hw.perform_eq_ok hv hdone
  cases hedit
  exact ⟨done, _, hdone, hadded, hpos, hsupplied.next_not_mem, hautomaton⟩

end Workspace

/-! ## §4. Sessions. -/

namespace Session

/-- **A removed state leaves no trace.**  To any version of any session a state can be
added, and it is a new one.  Let then any edits succeed that concern this state only,
each on what the one before it answers, whatever is requested meanwhile.  If after them
the state is removed, then the automaton is the one that there was at first: the same
start, states and names, accepting states, edges and explicit alphabet. -/
theorem removed_without_trace (calls : List Call) {v : VersionId}
    (hv : v < (empty.serveAll calls).workspace.versions.size) (name : Json) :
    let w := (empty.serveAll calls).workspace
    ∃ done q, w.perform v (.addState name) = .ok done ∧ done.added = some q
      ∧ q ∉ (w.automaton v).states
      ∧ ∀ edits w' u, (∀ e ∈ edits, e.ConcernsOnly q) →
          done.workspace.Leads done.version edits w' u →
          ∃ removed, w'.perform u (.removeState (.id q)) = .ok removed
            ∧ removed.workspace.automaton removed.version = w.automaton v := by
  intro w
  have hw : w.Sound := (sound_empty.serveAll calls).workspace
  obtain ⟨done, q, hdone, hadded, hpos, hnew, hgrown⟩ := hw.perform_addState hv name
  refine ⟨done, q, hdone, hadded, hnew, ?_⟩
  intro edits w' u hedits hleads
  have hc := hw.perform hv hdone
  have hc' := hleads.continues hc.sound hc.version_lt
  have hedited := hleads.editedAt hc.sound hc.version_lt hedits
  have hq : q ∈ (w'.automaton u).states := by
    rw [hedited.states_eq, hgrown]
    exact Automaton.mem_states_addState.2 (Or.inl rfl)
  obtain ⟨removed, hremoved, hleft⟩ := hc'.sound.perform_removeState hc'.version_lt hq
  refine ⟨removed, hremoved, ?_⟩
  calc removed.workspace.automaton removed.version
      = (w'.automaton u).dropState q := hleft
    _ = (done.workspace.automaton done.version).dropState q :=
        hedited.dropState_eq (hc.sound.wellFormed hc.version_lt)
          (hc'.sound.wellFormed hc'.version_lt)
    _ = ((w.automaton v).addState q name).dropState q := by rw [hgrown]
    _ = w.automaton v := (hw.wellFormed hv).dropState_addState hpos hnew name

/-- A state gets edges in both directions and a loop, one of them moves, and it accepts
under another name. -/
def entanglingEdits : List Edit :=
  [.setTransition (.id 4) (.id 1) (.text "b, ~"), .setTransition (.id 1) (.id 4) (.text "a-c"),
    .setTransition (.id 4) (.id 4) (.text "b"), .setTransitionTarget (.id 4) (.id 1) (.id 4),
    .removeTransition (.id 2) (.id 4), .setAccept (.id 4) true, .setName (.id 4) (.str "r")]

theorem removed_without_trace_threeStates :
    let w := (empty.serveAll threeStates).workspace
    7 < w.versions.size
      ∧ (∀ e ∈ entanglingEdits, e.ConcernsOnly 4)
      ∧ ∃ done w', w.perform 7 (.addState .null) = .ok done ∧ done.added = some 4
        ∧ done.workspace.Leads done.version entanglingEdits w' 14
        ∧ (w'.automaton 14).accept.toList = [2, 4]
        ∧ ∃ removed, w'.perform 14 (.removeState (.id 4)) = .ok removed
          ∧ removed.workspace.automaton removed.version = w.automaton 7 := by
  intro w
  have hsize : 7 < w.versions.size := by decide +kernel
  have hedits : ∀ e ∈ entanglingEdits, e.ConcernsOnly 4 := by
    simp [entanglingEdits, Edit.ConcernsOnly]
  obtain ⟨done, q, hdone, hadded, _, hremoved⟩ := removed_without_trace threeStates hsize .null
  have hfour : (w.perform 7 (.addState .null)).toOption.bind (·.added) = some 4 := by
    decide +kernel
  have hrun : (w.perform 7 (.addState .null)).toOption.map (fun done =>
      let run := done.workspace.performAll done.version (entanglingEdits.map .edit)
      (run.1.toOption, (run.2.automaton 14).accept.toList)) = some (some 14, [2, 4]) := by
    decide +kernel
  rw [hdone] at hfour hrun
  cases hadded.symm.trans hfour
  obtain ⟨hlast, haccept⟩ := Prod.mk.inj (Option.some.inj hrun)
  have hleads := Workspace.leads_performAll _ _ entanglingEdits (toOption_eq_some.1 hlast)
  exact ⟨hsize, hedits, done, _, hdone, hadded, hleads, haccept,
    hremoved entanglingEdits _ 14 hedits hleads⟩

end Session

end FiniteAutomata
