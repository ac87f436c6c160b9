/-
  FiniteAutomata.Proofs.Verdict
  ─────────────────────────────
  **A VERDICT SAYS WHAT INPUT CAN STILL DO.**

  A verdict is found by looking at states and edges, without their symbols.  It
  is compared with all that could be read from here on:

      reject         no input leads to acceptance
      inconclusive   some input does, but not the empty one
      accept         the empty one does

  For this a run has to be closed, so that reading on follows the paths from its
  states, and every edge has to match something, so that edges which lead to an
  accepting state are a path of some word.  Both hold of every reachable
  simulation.

      Run.verdict_eq_reject_iff_forall   a rejection and all words
      verdict_iff_future_input           the three verdicts, of a simulation
      rejection_is_final                 a rejection stays, and may be stopped at
-/
import FiniteAutomata.Proofs.Simulations

namespace FiniteAutomata

/-! ## §1. Runs. -/

theorem Verdict.eq_inconclusive_iff {v : Verdict} :
    v = .inconclusive ↔ v ≠ .reject ∧ v ≠ .accept := by
  cases v <;> simp

namespace Run

variable {a : Automaton} {r : Run}

theorem verdict_eq_accept_iff : r.verdict a = .accept ↔ ∃ f ∈ r.current, f ∈ a.accept :=
  verdictFor_eq_accept_iff.trans meets_iff

/-- Reading a word makes a closed run accept iff the word is on a path from its
states to an accepting one. -/
theorem verdict_advanceAll_eq_accept_iff (hr : r.Closed a.table) {w : List Char} :
    (r.advanceAll a.table w).verdict a = .accept ↔
      ∃ p ∈ r.current, ∃ f ∈ a.accept, Path a.table p w f := by
  rw [verdict_eq_accept_iff]
  constructor
  · intro h
    obtain ⟨f, hf, hacc⟩ := h
    obtain ⟨p, hp, hw⟩ := (mem_current_advanceAll hr).1 hf
    exact ⟨p, hp, f, hacc, hw⟩
  · intro h
    obtain ⟨p, hp, f, hacc, hw⟩ := h
    exact ⟨f, (mem_current_advanceAll hr).2 ⟨p, hp, hw⟩, hacc⟩

/-- **A run is rejected iff no word makes it accept.** -/
theorem verdict_eq_reject_iff_forall (ha : a.WellFormed) (hr : r.Closed a.table) :
    r.verdict a = .reject ↔ ∀ w, (r.advanceAll a.table w).verdict a ≠ .accept := by
  rw [verdict_eq_reject_iff]
  constructor
  · intro h w hw
    obtain ⟨p, hp, hpath⟩ := (verdict_advanceAll_eq_accept_iff hr).1 hw
    exact h p hp (ha.mem_generatingStates_iff.2 ⟨w, hpath⟩)
  · intro h p hp hg
    obtain ⟨w, hpath⟩ := ha.mem_generatingStates_iff.1 hg
    exact h w ((verdict_advanceAll_eq_accept_iff hr).2 ⟨p, hp, hpath⟩)

end Run

/-! ## §2. Simulations. -/

namespace Simulation

variable {s : Simulation}

theorem exists_progress (h : s.isRunning = true) : ∃ r, s.progress = some r :=
  Option.isSome_iff_exists.1 h

/-- To run to the end is to read all input, from where the run is. -/
theorem verdict_runComplete {r : Run} (hr : s.progress = some r) (extra : List Char) :
    (s.runComplete extra).verdict
      = (r.advanceAll s.automaton.table (s.remaining ++ extra)).verdict s.automaton := by
  have hrun : s.runOrBegin = r := by
    unfold runOrBegin
    rw [hr]
    rfl
  show ((s.runOrBegin).advanceAll s.automaton.table (s.remaining ++ extra)).verdict
    s.automaton = _
  rw [hrun]

/-- Other input does not touch the run. -/
theorem verdict_runComplete_setInput {r : Run} (hr : s.progress = some r) (v : List Char) :
    ((s.setInput v).runComplete []).verdict
      = (r.advanceAll s.automaton.table v).verdict s.automaton := by
  have hset : (s.setInput v).progress = some r := hr
  rw [verdict_runComplete hset]
  exact congrArg (fun w => (r.advanceAll s.automaton.table w).verdict s.automaton)
    (List.append_nil v)

/-- A rejected simulation is in a run. -/
theorem exists_rejected_run (h : s.verdict = .reject) :
    ∃ r, s.progress = some r ∧ r.verdict s.automaton = .reject := by
  unfold verdict at h
  cases hr : s.progress with
  | none => simp [hr] at h
  | some r =>
      rw [hr] at h
      exact ⟨r, rfl, h⟩

theorem verdict_runComplete_eq_reject (h : s.verdict = .reject) (extra : List Char) :
    (s.runComplete extra).verdict = .reject := by
  obtain ⟨r, hr, hreject⟩ := exists_rejected_run h
  rw [verdict_runComplete hr]
  exact Run.verdict_advanceAll_eq_reject hreject _

/-- To look ahead is to run to the end. -/
theorem willAccept_iff (h : s.isRunning = true) :
    s.willAccept = true ↔ (s.runComplete []).verdict = .accept := by
  unfold willAccept
  rw [h, Bool.true_and, Bool.and_eq_true, decide_eq_true_iff, decide_eq_true_iff, verdict_run]
  constructor
  · exact fun hs => hs.2
  · intro hs
    refine ⟨fun hreject => ?_, hs⟩
    rw [verdict_runComplete_eq_reject hreject []] at hs
    cases hs

/-- **The three verdicts.**  A run is rejected iff no input makes it accept, it
accepts iff the empty input does, and it is inconclusive iff some input does but
not the empty one; and it is foreseen to accept iff its own input makes it
accept. -/
theorem verdict_iff_future_input (h : s.Reachable) (hrun : s.isRunning = true) :
    (s.verdict = .reject ↔ ¬ ∃ v, ((s.setInput v).runComplete []).verdict = .accept)
      ∧ (s.verdict = .accept ↔ ((s.setInput []).runComplete []).verdict = .accept)
      ∧ (s.verdict = .inconclusive ↔
          (∃ v, ((s.setInput v).runComplete []).verdict = .accept)
            ∧ ((s.setInput []).runComplete []).verdict ≠ .accept)
      ∧ (s.willAccept = true ↔ (s.runComplete []).verdict = .accept) := by
  obtain ⟨r, hr⟩ := exists_progress hrun
  have hfits : r.Fits s.automaton := h.consistent.fits r hr
  have hverdict : s.verdict = r.verdict s.automaton := by
    unfold verdict
    rw [hr]
  have hreject : s.verdict = .reject ↔
      ¬ ∃ v, ((s.setInput v).runComplete []).verdict = .accept := by
    rw [hverdict, not_exists,
      Run.verdict_eq_reject_iff_forall h.consistent.wellFormed hfits.closed]
    simp only [verdict_runComplete_setInput hr, ne_eq]
  -- Reading nothing leaves a run where it is.
  have haccept : s.verdict = .accept ↔
      ((s.setInput []).runComplete []).verdict = .accept := by
    rw [verdict_runComplete_setInput hr, hverdict]
    exact Iff.rfl
  refine ⟨hreject, haccept, ?_, willAccept_iff hrun⟩
  rw [Verdict.eq_inconclusive_iff, ne_eq, ne_eq, ne_eq, hreject, haccept, Classical.not_not]

/-- The letter can still come, and it is what the input holds. -/
theorem verdict_iff_future_input_oneLetter :
    ((ofAutomaton .oneLetter ['a']).reset none).Reachable
      ∧ ((ofAutomaton .oneLetter ['a']).reset none).isRunning = true
      ∧ ((ofAutomaton .oneLetter ['a']).reset none).verdict = .inconclusive
      ∧ (∃ v, ((((ofAutomaton .oneLetter ['a']).reset none).setInput v).runComplete
          []).verdict = .accept)
      ∧ ((ofAutomaton .oneLetter ['a']).reset none).willAccept = true := by
  have hreach : ((ofAutomaton .oneLetter ['a']).reset none).Reachable :=
    .acted (.reset none) (.started ['a'] inLineage_oneLetter) rfl
  obtain ⟨_, _, hinconclusive, hwill⟩ := verdict_iff_future_input hreach rfl
  have hverdict : ((ofAutomaton .oneLetter ['a']).reset none).verdict = .inconclusive := by
    decide +kernel
  exact ⟨hreach, rfl, hverdict, (hinconclusive.1 hverdict).1, hwill.2 (by decide +kernel)⟩

end Simulation

/-! ## §3. Rejections. -/

/-- Whether an act goes on with the run if there is one. -/
def Act.goesOn : Act → Bool
  | .reset _ | .stop => false
  | _ => true

namespace Simulation

variable {s : Simulation}

/-- **One act.**  It cannot fail, and the run stays rejected. -/
theorem verdict_act_eq_reject (h : s.verdict = .reject) {act : Act} (hact : act.goesOn = true) :
    ∃ s', s.act act = .ok s' ∧ s'.verdict = .reject := by
  cases act with
  | setInput text => exact ⟨s.setInput text, rfl, h⟩
  | addInput text => exact ⟨s.addInput text, rfl, h⟩
  | reset text => cases hact
  | step =>
      obtain ⟨r, hr, hreject⟩ := exists_rejected_run h
      unfold Simulation.act Simulation.step
      cases hw : s.remaining with
      | nil => exact ⟨s, by simp only [hr], h⟩
      | cons c rest =>
          refine ⟨{ s with
            remaining := rest, progress := some (r.advance s.automaton.table c) },
            by simp only [hr], ?_⟩
          exact Run.verdict_advance_eq_reject hreject c
  | run extra =>
      exact ⟨s.run extra, rfl, (verdict_run s extra).trans (verdict_runComplete_eq_reject h extra)⟩
  | runComplete extra =>
      exact ⟨s.runComplete extra, rfl, verdict_runComplete_eq_reject h extra⟩
  | stop => cases hact

/-- **Acts in order.** -/
theorem verdict_acts_eq_reject (h : s.verdict = .reject) {acts : List Act}
    (hacts : ∀ act ∈ acts, act.goesOn = true) :
    ∃ s', acts.foldlM Simulation.act s = .ok s' ∧ s'.verdict = .reject := by
  induction acts generalizing s with
  | nil => exact ⟨s, rfl, h⟩
  | cons act rest ih =>
      obtain ⟨m, hm, hreject⟩ := verdict_act_eq_reject h (hacts act List.mem_cons_self)
      obtain ⟨s', hs', hreject'⟩ := ih hreject fun b hb => hacts b (List.mem_cons_of_mem act hb)
      refine ⟨s', ?_, hreject'⟩
      rw [List.foldlM_cons, hm]
      exact hs'

/-- **A rejection is final.**  To stop reading at a rejection gives the verdict of
reading everything; and whatever a rejected run reads next, as long as it is not
begun anew or given up, it stays rejected. -/
theorem rejection_is_final (s : Simulation) :
    (∀ extra, (s.run extra).verdict = (s.runComplete extra).verdict)
      ∧ (s.verdict = .reject → ∀ acts : List Act, (∀ act ∈ acts, act.goesOn = true) →
          ∃ s', acts.foldlM Simulation.act s = .ok s' ∧ s'.verdict = .reject) :=
  ⟨verdict_run s, fun h _ hacts => verdict_acts_eq_reject h hacts⟩

/-- One letter rejects `b`, and nothing that is read afterwards changes that. -/
theorem rejection_is_final_oneLetter :
    (((ofAutomaton .oneLetter []).reset (some ['b', 'a'])).run []).verdict = .reject
      ∧ (((ofAutomaton .oneLetter []).reset (some ['b', 'a'])).run []).remaining = ['a']
      ∧ ∃ s', [Act.step, .setInput ['a'], .step, .run ['a']].foldlM Simulation.act
            (((ofAutomaton .oneLetter []).reset (some ['b', 'a'])).run []) = .ok s'
          ∧ s'.verdict = .reject := by
  have hreject : (((ofAutomaton .oneLetter []).reset (some ['b', 'a'])).run []).verdict
      = .reject := by decide +kernel
  refine ⟨hreject, by decide +kernel, ?_⟩
  exact (rejection_is_final _).2 hreject [.step, .setInput ['a'], .step, .run ['a']]
    (by decide)

end Simulation

end FiniteAutomata
