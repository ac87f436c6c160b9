/-
  FiniteAutomata.Proofs.Acceptance
  ────────────────────────────────
  **RUNS FOLLOW PATHS.**

  A run keeps a set of states.  The set is closed under edges that read nothing
  (`Run.Closed`), and from a closed set reading a word leads to exactly the ends
  of the paths that read it:

      mem_current_advanceAll    a run after a word

  Generating states are those that lead to an accepting one (`mem_generating`), so
  a rejected run stays rejected.  Hence a run that stops at a rejection has the
  verdict of a run that reads on (`verdict_advanceLive`), and an automaton accepts
  the words on paths from its start to its accepting states (`accepts_iff`).
-/
import FiniteAutomata.Language
import FiniteAutomata.Proofs.Path

namespace FiniteAutomata

/-! ## §1. Closed runs. -/

namespace Run

/-- The states of the run are closed under edges that read nothing. -/
def Closed (r : Run) (t : Table) : Prop :=
  ∀ p ∈ r.current, ∀ q, Path t p [] q → q ∈ r.current

theorem closed_settle (t : Table) (states : StateSet) (taken : List Edge)
    (count : Nat) (followed : History) :
    (settle t states taken count followed).Closed t := by
  intro p hp q hq
  rw [mem_current_settle] at hp ⊢
  obtain ⟨s, hs, hl⟩ := hp
  exact ⟨s, hs, hl.trans (path_nil_iff.1 hq)⟩

theorem closed_begin (a : Automaton) : (begin a).Closed a.table :=
  closed_settle a.table _ _ _ _

theorem closed_advance (t : Table) (r : Run) (c : Char) : (r.advance t c).Closed t :=
  closed_settle t _ _ _ _

/-- At first a run is where paths lead that read nothing. -/
theorem mem_current_begin {a : Automaton} {q : StateId} :
    q ∈ (begin a).current ↔ ∃ s, a.start = some s ∧ Path a.table s [] q := by
  unfold begin
  rw [mem_current_settle]
  cases ha : a.start with
  | none =>
      constructor
      · intro h
        obtain ⟨s, hs, _⟩ := h
        exact absurd hs (OrderedSet.not_mem_empty s)
      · intro h
        obtain ⟨s, hs, _⟩ := h
        cases hs
  | some s =>
      constructor
      · intro h
        obtain ⟨p, hp, hl⟩ := h
        rw [OrderedSet.mem_singleton] at hp
        subst hp
        exact ⟨p, rfl, path_nil_iff.2 hl⟩
      · intro h
        obtain ⟨p, hp, hl⟩ := h
        injection hp with hp
        subst hp
        exact ⟨s, OrderedSet.mem_singleton.2 rfl, path_nil_iff.1 hl⟩

/-- A character leads from a closed run to the ends of the paths that read it. -/
theorem mem_current_advance {t : Table} {r : Run} (hr : r.Closed t) {c : Char}
    {q : StateId} :
    q ∈ (r.advance t c).current ↔ ∃ p ∈ r.current, Path t p [c] q := by
  unfold advance
  rw [mem_current_settle]
  constructor
  · intro h
    obtain ⟨m, hm, hl⟩ := h
    obtain ⟨e, he, rfl⟩ := mem_targetsOf.1 hm
    obtain ⟨ho, g, hg, hc⟩ := mem_moves.1 he
    exact ⟨e.origin, ho, .read hg hc (path_nil_iff.2 hl)⟩
  · intro h
    obtain ⟨p, hp, hpath⟩ := h
    obtain ⟨m, n, g, hm, hg, hc, hn⟩ := hpath.exists_read
    -- The edges before the one that reads stay inside the closed set.
    have hmem : (⟨m, n⟩ : Edge) ∈ moves t r.current c :=
      mem_moves.2 ⟨hr p hp m hm, g, hg, hc⟩
    exact ⟨n, mem_targetsOf.2 ⟨⟨m, n⟩, hmem, rfl⟩, path_nil_iff.1 hn⟩

/-- A word leads from a closed run to the ends of the paths that read it. -/
theorem mem_current_advanceAll {t : Table} {r : Run} (hr : r.Closed t)
    {w : List Char} {q : StateId} :
    q ∈ (r.advanceAll t w).current ↔ ∃ p ∈ r.current, Path t p w q := by
  induction w generalizing r with
  | nil =>
      constructor
      · intro h
        exact ⟨q, h, .nil q⟩
      · intro h
        obtain ⟨p, hp, hpath⟩ := h
        exact hr p hp q hpath
  | cons c w ih =>
      show q ∈ ((r.advance t c).advanceAll t w).current ↔ _
      rw [ih (closed_advance t r c)]
      constructor
      · intro h
        obtain ⟨m, hm, hw⟩ := h
        obtain ⟨p, hp, hc⟩ := (mem_current_advance hr).1 hm
        exact ⟨p, hp, hc.append hw⟩
      · intro h
        obtain ⟨p, hp, hpath⟩ := h
        have hcut : Path t p ([c] ++ w) q := hpath
        obtain ⟨m, hc, hw⟩ := hcut.split
        exact ⟨m, (mem_current_advance hr).2 ⟨p, hp, hc⟩, hw⟩

/-- After a word the run of an automaton is where paths lead that read it. -/
theorem mem_current_advanceAll_begin {a : Automaton} {w : List Char} {q : StateId} :
    q ∈ ((begin a).advanceAll a.table w).current ↔
      ∃ s, a.start = some s ∧ Path a.table s w q := by
  rw [mem_current_advanceAll (closed_begin a)]
  constructor
  · intro h
    obtain ⟨p, hp, hw⟩ := h
    obtain ⟨s, hs, hnil⟩ := mem_current_begin.1 hp
    exact ⟨s, hs, hnil.append hw⟩
  · intro h
    obtain ⟨s, hs, hw⟩ := h
    exact ⟨s, mem_current_begin.2 ⟨s, hs, .nil s⟩, hw⟩

end Run

/-! ## §2. Rejected runs. -/

/-- Generating states are those from which some word is read on the way to an
accepting state. -/
theorem Automaton.WellFormed.mem_generatingStates_iff {a : Automaton} (h : a.WellFormed)
    {s : StateId} :
    s ∈ a.generatingStates ↔ ∃ w, ∃ f ∈ a.accept, Path a.table s w f := by
  rw [mem_generatingStates]
  constructor
  · intro hs
    obtain ⟨f, hf, hl⟩ := hs
    obtain ⟨w, hw⟩ := exists_path_of_linked h.label_nonempty hl
    exact ⟨w, f, hf, hw⟩
  · intro hs
    obtain ⟨w, f, hf, hw⟩ := hs
    exact ⟨f, hf, hw.linked⟩

namespace Run

/-- A rejected run is in no generating state. -/
theorem verdict_eq_reject_iff {a : Automaton} {r : Run} :
    r.verdict a = .reject ↔ ∀ s ∈ r.current, s ∉ a.generatingStates := by
  unfold verdict
  rw [verdictFor_eq_reject_iff, ← Bool.not_eq_true, ← Bool.not_eq_true, meets_iff,
    meets_iff]
  constructor
  · intro h s hs hg
    exact h.2 ⟨s, hs, hg⟩
  · intro h
    constructor
    · intro hacc
      obtain ⟨s, hs, hf⟩ := hacc
      exact h s hs (Automaton.mem_generatingStates.2 ⟨s, hf, .refl s⟩)
    · intro hgen
      obtain ⟨s, hs, hg⟩ := hgen
      exact h s hs hg

/-- A run that is in no generating state does not get into one. -/
theorem verdict_advance_eq_reject {a : Automaton} {r : Run} (h : r.verdict a = .reject)
    (c : Char) : (r.advance a.table c).verdict a = .reject := by
  rw [verdict_eq_reject_iff] at h ⊢
  intro q hq hg
  unfold advance at hq
  rw [mem_current_settle] at hq
  obtain ⟨m, hm, hl⟩ := hq
  obtain ⟨e, he, rfl⟩ := mem_targetsOf.1 hm
  obtain ⟨ho, g, hlabel, _⟩ := mem_moves.1 he
  obtain ⟨f, hf, hqf⟩ := Automaton.mem_generatingStates.1 hg
  -- The edge read and those of the closure lead from the old state to the new one.
  have hread : Linked a.table.edges e.origin e.target := Table.linked_of_label? hlabel
  have hpath : Linked a.table.edges e.target q := (path_nil_iff.2 hl).linked
  have hlink : Linked a.table.edges e.origin f := hread.trans (hpath.trans hqf)
  exact h e.origin ho (Automaton.mem_generatingStates.2 ⟨f, hf, hlink⟩)

theorem verdict_advanceAll_eq_reject {a : Automaton} {r : Run}
    (h : r.verdict a = .reject) (w : List Char) :
    (r.advanceAll a.table w).verdict a = .reject := by
  induction w generalizing r with
  | nil => exact h
  | cons c w ih => exact ih (verdict_advance_eq_reject h c)

/-- A run that stops at a rejection has the verdict of the run that reads on. -/
theorem verdict_advanceLive (a : Automaton) (r : Run) (w : List Char) :
    (r.advanceLive a a.generatingStates w).1.verdict a
      = (r.advanceAll a.table w).verdict a := by
  induction w generalizing r with
  | nil => rfl
  | cons c w ih =>
      unfold advanceLive
      by_cases h : r.verdictFor a.accept a.generatingStates = .reject
      · rw [if_pos h]
        -- What is not read any more could not change the verdict.
        have hall := verdict_advanceAll_eq_reject h (c :: w)
        exact h.trans hall.symm
      · rw [if_neg h]
        exact ih (r.advance a.table c)

end Run

/-! ## §3. Simulations. -/

namespace Simulation

/-- Read a number of characters, one at a time. -/
def steps : Nat → Simulation → Except SimulationError Simulation
  | 0, s => .ok s
  | k + 1, s => do steps k (← s.step)

/-- As long as there is input, steps read it. -/
theorem steps_eq {s : Simulation} {r : Run} (hr : s.progress = some r) {k : Nat}
    (hk : k ≤ s.remaining.length) :
    steps k s = .ok { s with
      remaining := s.remaining.drop k
      progress := some (r.advanceAll s.automaton.table (s.remaining.take k)) } := by
  obtain ⟨a, remaining, progress⟩ := s
  dsimp only at hr hk ⊢
  subst hr
  -- Each step changes the run and the input, so both are arbitrary.
  induction k generalizing r remaining with
  | zero => rfl
  | succ k ih =>
      cases remaining with
      | nil => simp at hk
      | cons c rest =>
          have hk' : k ≤ rest.length := by simpa using hk
          show steps k ⟨a, rest, some (r.advance a.table c)⟩ = _
          rw [ih rest hk']
          rfl

/-- A run that stops at a rejection has the verdict of a complete run. -/
theorem verdict_run (s : Simulation) (extra : List Char) :
    (s.run extra).verdict = (s.runComplete extra).verdict :=
  Run.verdict_advanceLive s.automaton s.runOrBegin (s.remaining ++ extra)

end Simulation

/-! ## §4. Acceptance. -/

namespace Automaton

/-- An automaton accepts the words on paths from its start to its accepting
states. -/
theorem accepts_iff {a : Automaton} {w : List Char} :
    a.accepts w = true ↔
      ∃ s, a.start = some s ∧ ∃ f ∈ a.accept, Path a.table s w f := by
  have hrun : (((Simulation.ofAutomaton a []).reset (some w)).run []).verdict
      = ((Run.begin a).advanceAll a.table (w ++ [])).verdict a :=
    Simulation.verdict_run _ []
  unfold accepts
  rw [decide_eq_true_iff, hrun, List.append_nil]
  unfold Run.verdict
  rw [Run.verdictFor_eq_accept_iff, Run.meets_iff]
  constructor
  · intro h
    obtain ⟨f, hf, hacc⟩ := h
    obtain ⟨s, hs, hpath⟩ := Run.mem_current_advanceAll_begin.1 hf
    exact ⟨s, hs, f, hacc, hpath⟩
  · intro h
    obtain ⟨s, hs, f, hacc, hpath⟩ := h
    exact ⟨f, Run.mem_current_advanceAll_begin.2 ⟨s, hs, hpath⟩, hacc⟩

/-- **Acceptance is acceptance along a path.**  A word is accepted iff some path
from the start to an accepting state reads it; on the way, after `k` characters,
the simulation is exactly where paths lead that read those; and to stop at a
rejection answers what reading to the end answers. -/
theorem accepts_along_paths (a : Automaton) (w : List Char) :
    (a.accepts w = true ↔
        ∃ s, a.start = some s ∧ ∃ f ∈ a.accept, Path a.table s w f)
      ∧ (∀ k ≤ w.length, ∃ sim : Simulation,
          ((Simulation.ofAutomaton a []).reset (some w)).steps k = .ok sim
            ∧ ∀ q, q ∈ sim.current ↔
                ∃ s, a.start = some s ∧ Path a.table s (w.take k) q)
      ∧ (((Simulation.ofAutomaton a []).reset (some w)).run []).verdict
          = (((Simulation.ofAutomaton a []).reset (some w)).runComplete []).verdict := by
  refine ⟨accepts_iff, ?_, Simulation.verdict_run _ []⟩
  intro k hk
  refine ⟨_, Simulation.steps_eq rfl hk, ?_⟩
  intro q
  exact Run.mem_current_advanceAll_begin

end Automaton

end FiniteAutomata
