/-
  FiniteAutomata.Proofs.LastAlphabet
  ──────────────────────────────────
  **THE LAST EDIT OF THE ALPHABET DECIDES, UNLESS IT SETS NO ALPHABET IN PLACE OF AN
  EMPTY ONE.**

  An edit of the alphabet forgets the alphabet that was set before, with one
  exception: to set no alphabet is compared as if it set one that matches nothing, so
  it leaves such an alphabet where it is.  Other edits have nothing to do with it:

      Edit.Turns                what an edit makes of the explicit alphabet
      Automaton.alphabet_edit   one edit
      Leads.alphabet_eq         a stretch of edits that are not about the alphabet
      Leads.exists_turns        the last edit that is

  Main statement: `Session.last_alphabet_edit_decides`, for edits on edits from any
  version of any session, whatever is requested meanwhile.
-/
import FiniteAutomata.Proofs.Unchanged

namespace FiniteAutomata

/-! ## §1. One edit. -/

/-- The edit is about the alphabet. -/
def Edit.ConcernsAlphabet : Edit → Prop
  | .setAlphabet _ | .unsetAlphabet => True
  | _ => False

/-- What an edit that succeeds makes of the explicit alphabet. -/
def Edit.Turns : Edit → Option SymbolSet → Option SymbolSet → Prop
  | .setAlphabet (some label), _, after => ∃ g, label.read = .ok g ∧ after = some g.withoutEmpty
  | .setAlphabet none, before, after => after = if before = some ∅ then some ∅ else none
  | .unsetAlphabet, _, after => after = none
  | _, before, after => after = before

theorem Edit.Turns.eq {e : Edit} {before after : Option SymbolSet} (h : e.Turns before after)
    (he : ¬ e.ConcernsAlphabet) : after = before := by
  cases e with
  | setAlphabet _ | unsetAlphabet => exact absurd trivial he
  | _ => exact h

namespace Automaton

variable {a : Automaton}

/-- What is set is the alphabet afterwards, but for nothing in place of an empty one. -/
theorem alphabet_withAlphabet? (a : Automaton) (alphabet : Option SymbolSet) :
    ((a.withAlphabet? alphabet).getD a).alphabet
      = if a.alphabet = some ∅ ∧ alphabet = none then some ∅ else alphabet := by
  unfold withAlphabet?
  cases ha : a.alphabet with
  | none => simp
  | some current =>
      dsimp only
      by_cases hc : current = alphabet.getD ∅
      · rw [if_pos hc]
        subst hc
        cases alphabet <;> simp [ha]
      · rw [if_neg hc]
        have hnot : ¬ (some current = some ∅ ∧ alphabet = none) := by
          rintro ⟨hcurrent, rfl⟩
          exact hc (Option.some.inj hcurrent)
        rw [if_neg hnot]
        rfl

theorem alphabet_unsetAlphabet? (a : Automaton) :
    (a.unsetAlphabet?.getD a).alphabet = none := by
  unfold unsetAlphabet?
  cases ha : a.alphabet with
  | none => exact ha
  | some g => rfl

/-- What keeps the alphabet where it changes something keeps it altogether. -/
theorem alphabet_getD {result : Option Automaton}
    (h : ∀ b, result = some b → b.alphabet = a.alphabet) :
    (result.getD a).alphabet = a.alphabet := by
  cases result with
  | none => rfl
  | some b => exact h b rfl

theorem alphabet_complete? (a : Automaton) (supply : IdSupply) :
    ((a.complete? supply).1.getD a).alphabet = a.alphabet := by
  obtain hc | ⟨sink, _, _, hc⟩ | hc := complete?_cases a supply
  · rw [hc]
    rfl
  · obtain ⟨table, hrouted⟩ := routeAll_eq a sink (a.lacking a.effectiveAlphabet)
    rw [hc, hrouted]
    rfl
  · obtain ⟨table, hrouted⟩ := routeAll_eq (a.addState supply.next rejectStateName)
      supply.next (a.lacking a.effectiveAlphabet ++ [(supply.next, a.effectiveAlphabet)])
    rw [hc, hrouted]
    rfl

/-- **One edit.** -/
theorem alphabet_edit {supply : IdSupply} {e : Edit} {d : Edited}
    (he : a.edit supply e = .ok d) : e.Turns a.alphabet (d.automaton.getD a).alphabet := by
  cases e with
  | addState name =>
      cases he
      rfl
  | removeState r =>
      cases he
      refine alphabet_getD fun b hb => ?_
      obtain ⟨s, _, rfl⟩ := removeState?_eq_some hb
      rfl
  | setTransition o t label =>
      obtain ⟨result, hr, he⟩ := bind_eq_ok.1 he
      cases he
      refine alphabet_getD fun b hb => ?_
      subst hb
      obtain ⟨_, _, _, _, _, _, hb⟩ := setTransition?_eq_some (mapError_eq_ok.1 hr)
      obtain ⟨r, rfl⟩ := relabel?_eq_withRow hb
      rfl
  | setTransitionTarget o x y =>
      cases he
      refine alphabet_getD fun b hb => ?_
      obtain ⟨_, _, _, _, _, _, hb⟩ := setTransitionTarget?_eq_some hb
      obtain ⟨_, _, _, rfl⟩ := moveEdge?_eq_some hb
      rfl
  | removeTransition o t =>
      cases he
      refine alphabet_getD fun b hb => ?_
      obtain ⟨_, _, _, _, hb⟩ := removeTransition?_eq_some hb
      obtain ⟨_, rfl⟩ := dropEdge?_eq_some hb
      rfl
  | setStart r =>
      cases he
      refine alphabet_getD fun b hb => ?_
      obtain ⟨_, _, rfl⟩ := setStart?_eq_some hb
      rfl
  | setAccept r accept | toggleAccept r =>
      cases he
      refine alphabet_getD fun b hb => ?_
      obtain ⟨_, _, rfl⟩ := setAccept?_eq_some hb
      rfl
  | setName r name =>
      cases he
      refine alphabet_getD fun b hb => ?_
      obtain ⟨_, _, rfl⟩ := setName?_eq_some hb
      rfl
  | setAlphabet label? =>
      obtain ⟨result, hr, he⟩ := bind_eq_ok.1 he
      cases he
      obtain ⟨alphabet, hread, hr⟩ := bind_eq_ok.1 (mapError_eq_ok.1 hr)
      cases hr
      show Edit.Turns _ _ ((a.withAlphabet? alphabet).getD a).alphabet
      rw [alphabet_withAlphabet?]
      cases label? with
      | none =>
          cases hread
          simp [Edit.Turns]
      | some label =>
          obtain ⟨g, hg, hread⟩ := bind_eq_ok.1 hread
          cases hread
          exact ⟨g, hg, if_neg fun h => nomatch h.2⟩
  | unsetAlphabet =>
      cases he
      exact alphabet_unsetAlphabet? a
  | trim =>
      cases he
      refine alphabet_getD fun b hb => ?_
      have hkept := trimFor?_eq_some hb
      subst hkept
      rfl
  | complete =>
      cases he
      exact alphabet_complete? a supply

end Automaton

/-! ## §2. Edits on edits. -/

namespace Workspace

variable {w w' : Workspace} {v u : VersionId}

/-- `w.Leads v edits w' u`: the edits succeed one after the other, each on the version
that the one before it answers, and lead from the version `v` to the version `u`.
Anything may be requested meanwhile. -/
inductive Leads : Workspace → VersionId → List Edit → Workspace → VersionId → Prop
  | refl (w : Workspace) (v : VersionId) : Leads w v [] w v
  | meanwhile {w w' : Workspace} {v u : VersionId} {edits : List Edit} (r : Request) :
      Leads (w.serve r).2 v edits w' u → Leads w v edits w' u
  | edit {w w' : Workspace} {v u : VersionId} {e : Edit} {edits : List Edit} {done : Performed} :
      w.perform v e = .ok done → Leads done.workspace done.version edits w' u →
      Leads w v (e :: edits) w' u

/-- Edits are led through one after the other. -/
theorem Leads.split {before after : List Edit} (h : w.Leads v (before ++ after) w' u) :
    ∃ w₁ u₁, w.Leads v before w₁ u₁ ∧ w₁.Leads u₁ after w' u := by
  generalize hedits : before ++ after = edits at h
  induction h generalizing before with
  | refl w v =>
      obtain ⟨rfl, rfl⟩ := List.append_eq_nil_iff.1 hedits
      exact ⟨w, v, .refl w v, .refl w v⟩
  | meanwhile r _ ih =>
      obtain ⟨w₁, u₁, h₁, h₂⟩ := ih hedits
      exact ⟨w₁, u₁, .meanwhile r h₁, h₂⟩
  | edit hdone hrest ih =>
      cases before with
      | nil =>
          cases hedits
          exact ⟨_, _, .refl _ _, .edit hdone hrest⟩
      | cons e' before =>
          cases hedits
          obtain ⟨w₁, u₁, h₁, h₂⟩ := ih rfl
          exact ⟨w₁, u₁, .edit hdone h₁, h₂⟩

theorem Leads.continues {edits : List Edit} (h : w.Leads v edits w' u) (hw : w.Sound)
    (hv : v < w.versions.size) : w.Continues w' u := by
  induction h with
  | refl => exact .refl hw hv
  | meanwhile r _ ih =>
      have hc := hw.serve_continues hv r
      exact hc.trans (ih hc.sound hc.version_lt)
  | edit hdone _ ih =>
      have hc := hw.perform hv hdone
      exact hc.trans (ih hc.sound hc.version_lt)

theorem Sound.turns_of_perform (hw : w.Sound) (hv : v < w.versions.size) {e : Edit}
    {done : Performed} (hdone : w.perform v e = .ok done) :
    e.Turns (w.automaton v).alphabet (done.workspace.automaton done.version).alphabet := by
  obtain ⟨d, hedit, _, hautomaton⟩ := hw.perform_eq_ok hv hdone
  rw [hautomaton]
  exact Automaton.alphabet_edit hedit

/-- Edits that are not about the alphabet leave it as it is. -/
theorem Leads.alphabet_eq {edits : List Edit} (h : w.Leads v edits w' u) (hw : w.Sound)
    (hv : v < w.versions.size) (hedits : ∀ e ∈ edits, ¬ e.ConcernsAlphabet) :
    (w'.automaton u).alphabet = (w.automaton v).alphabet := by
  induction h with
  | refl => rfl
  | meanwhile r _ ih =>
      have hc := hw.serve_continues hv r
      rw [ih hc.sound hc.version_lt hedits, hw.automaton_serve hv]
  | edit hdone _ ih =>
      obtain ⟨he, hedits⟩ := List.forall_mem_cons.1 hedits
      have hc := hw.perform hv hdone
      rw [ih hc.sound hc.version_lt hedits]
      exact (hw.turns_of_perform hv hdone).eq he

/-- The first of the edits decides if no later one is about the alphabet. -/
theorem Leads.turns_cons {e : Edit} {edits : List Edit} (h : w.Leads v (e :: edits) w' u)
    (hw : w.Sound) (hv : v < w.versions.size) (hedits : ∀ e ∈ edits, ¬ e.ConcernsAlphabet) :
    e.Turns (w.automaton v).alphabet (w'.automaton u).alphabet := by
  generalize hall : e :: edits = all at h
  induction h with
  | refl => cases hall
  | meanwhile r _ ih =>
      have hc := hw.serve_continues hv r
      rw [← hw.automaton_serve hv r]
      exact ih hc.sound hc.version_lt hall
  | edit hdone hrest _ =>
      cases hall
      have hc := hw.perform hv hdone
      rw [hrest.alphabet_eq hc.sound hc.version_lt hedits]
      exact hw.turns_of_perform hv hdone

/-- **The last edit of the alphabet**, made on the version to which those before it lead. -/
theorem Leads.exists_turns {before after : List Edit} {e : Edit}
    (h : w.Leads v (before ++ e :: after) w' u) (hw : w.Sound) (hv : v < w.versions.size)
    (hafter : ∀ e ∈ after, ¬ e.ConcernsAlphabet) :
    ∃ w₁ u₁, w.Leads v before w₁ u₁ ∧ w₁.Leads u₁ (e :: after) w' u
      ∧ e.Turns (w₁.automaton u₁).alphabet (w'.automaton u).alphabet := by
  obtain ⟨w₁, u₁, h₁, h₂⟩ := h.split
  have hc := h₁.continues hw hv
  exact ⟨w₁, u₁, h₁, h₂, h₂.turns_cons hc.sound hc.version_lt hafter⟩

/-- Commands that succeed are such edits. -/
theorem leads_performAll (w : Workspace) (v : VersionId) (edits : List Edit)
    (h : (w.performAll v (edits.map .edit)).1 = .ok u) :
    w.Leads v edits (w.performAll v (edits.map .edit)).2 u := by
  induction edits generalizing w v with
  | nil =>
      cases h
      exact .refl w _
  | cons e edits ih =>
      rw [List.map_cons, performAll] at h ⊢
      cases hdone : w.performCommand v (.edit e) with
      | error err =>
          rw [hdone] at h
          cases h
      | ok done =>
          rw [hdone] at h
          exact .edit hdone (ih done.workspace done.version h)

end Workspace

/-! ## §3. Sessions. -/

namespace Session

/-- **The last edit of the alphabet decides.**  From any version of any session, edits
that succeed leave the explicit alphabet as it is if none of them is about it.  Otherwise
the last that is decides: unsetting unsets it, and a text or a set gives its symbols but
the empty one, whatever was set before.  To set no alphabet unsets it too, unless the
alphabet of the version on which this is done matches nothing; that one stays.  Without
an explicit alphabet the answer is the minimal one. -/
theorem last_alphabet_edit_decides (calls : List Call) {v : VersionId}
    (hv : v < (empty.serveAll calls).workspace.versions.size) {edits : List Edit}
    {w' : Workspace} {u : VersionId}
    (h : (empty.serveAll calls).workspace.Leads v edits w' u) :
    let w := (empty.serveAll calls).workspace
    let b := w'.automaton u
    (∀ before e after, edits = before ++ e :: after → (∀ e' ∈ after, ¬ e'.ConcernsAlphabet) →
        (e = .unsetAlphabet → b.alphabet = none)
          ∧ (∀ label, e = .setAlphabet (some label) →
              ∃ g, label.read = .ok g ∧ b.alphabet = some g.withoutEmpty)
          ∧ (e = .setAlphabet none → ∃ w₁ u₁, w.Leads v before w₁ u₁
              ∧ w₁.Leads u₁ (e :: after) w' u
              ∧ b.alphabet = if (w₁.automaton u₁).alphabet = some ∅ then some ∅ else none))
      ∧ ((∀ e ∈ edits, ¬ e.ConcernsAlphabet) → b.alphabet = (w.automaton v).alphabet)
      ∧ (w'.ask u .effectiveAlphabet).1 = .symbols (b.alphabet.getD b.minimalAlphabet) := by
  intro w b
  have hw : w.Sound := (sound_empty.serveAll calls).workspace
  have hc := h.continues hw hv
  refine ⟨?_, h.alphabet_eq hw hv, ?_⟩
  · intro before e after hedits hafter
    subst hedits
    obtain ⟨w₁, u₁, h₁, h₂, hturns⟩ := h.exists_turns hw hv hafter
    refine ⟨?_, ?_, ?_⟩
    · rintro rfl
      exact hturns
    · rintro label rfl
      exact hturns
    · rintro rfl
      exact ⟨w₁, u₁, h₁, h₂, hturns⟩
  · exact (Workspace.ask_forget hc.sound (Workspace.getElem?_version hc.version_lt) _).1

/-- An alphabet is emptied and then another one set, before a state is renamed. -/
def resettingEdits : List Edit :=
  [.setAlphabet (some (.text "")), .setAlphabet (some (.text "b, ~")),
    .setName (.id 1) (.str "p")]

theorem last_alphabet_edit_decides_threeStates :
    7 < (empty.serveAll threeStates).workspace.versions.size
      ∧ ∃ w' u, (empty.serveAll threeStates).workspace.Leads 7 resettingEdits w' u
        ∧ ∃ g, SymbolSet.read "b, ~" = .ok g ∧ (w'.automaton u).alphabet = some g.withoutEmpty := by
  have hsize : 7 < (empty.serveAll threeStates).workspace.versions.size := by decide +kernel
  have hdone : ((empty.serveAll threeStates).workspace.performAll 7
      (resettingEdits.map .edit)).1 = .ok 10 := toOption_eq_some.1 (by decide +kernel)
  have hleads := Workspace.leads_performAll _ 7 resettingEdits hdone
  obtain ⟨hlast, _, _⟩ := last_alphabet_edit_decides threeStates hsize hleads
  obtain ⟨_, hset, _⟩ := hlast [.setAlphabet (some (.text ""))]
    (.setAlphabet (some (.text "b, ~"))) [.setName (.id 1) (.str "p")] rfl
    (List.forall_mem_singleton.2 id)
  exact ⟨hsize, _, _, hleads, hset _ rfl⟩

/-- An alphabet is emptied and then none is set. -/
def emptyingEdits : List Edit := [.setAlphabet (some (.text "")), .setAlphabet none]

/-- The last edit sets no alphabet, and still there is one: it matches nothing, while the
edges have a character. -/
theorem alphabet_emptyingEdits :
    ∃ w' u, (empty.serveAll threeStates).workspace.Leads 7 emptyingEdits w' u
      ∧ emptyingEdits = [.setAlphabet (some (.text ""))] ++ [.setAlphabet none]
      ∧ (w'.automaton u).alphabet = some ∅
      ∧ (w'.automaton u).effectiveAlphabet ≠ (w'.automaton u).minimalAlphabet := by
  have hdone : ((empty.serveAll threeStates).workspace.performAll 7
      (emptyingEdits.map .edit)).1 = .ok 8 := toOption_eq_some.1 (by decide +kernel)
  have hleads := Workspace.leads_performAll _ 7 emptyingEdits hdone
  exact ⟨_, _, hleads, rfl, by decide +kernel, by decide +kernel⟩

end Session

end FiniteAutomata
