/-
  FiniteAutomata.Proofs.SingleState
  ─────────────────────────────────
  **A DETERMINISTIC RUN IS IN ONE STATE.**

  A deterministic automaton has no edge without input, and each character leads from
  a state to one state at most.  So all paths from a state that read the same word
  have the same end, and as runs are where paths lead they never branch.  Where the
  alphabet is covered besides, no run gets stuck on a word over it:

      Path.end_unique                   no two ends
      Covers.exists_path                an end
      size_advanceAll_begin_le_one      runs of deterministic automata
      size_advanceAll_begin_eq_one      runs of those that cover an alphabet
      SuppliedBy.complete_covers        which completed ones do

  Main statement: `deterministic_runs`, for every version of a session that is said to
  be deterministic, be it from memory.
-/
import FiniteAutomata.Proofs.Commands
import FiniteAutomata.Proofs.Coverage

namespace FiniteAutomata

/-! ## §1. Paths in deterministic tables. -/

/-- The paths from a state that read the same word have the same end. -/
theorem Path.end_unique {t : Table} (hdet : t.isDeterministic = true) {p q q' : StateId}
    {w : List Char} (h : Path t p w q) (h' : Path t p w q') : q = q' := by
  obtain ⟨hsilent, htarget⟩ := Table.isDeterministic_iff_carries.1 hdet
  induction h with
  | nil p =>
      cases h' with
      | nil => rfl
      | silent hl he _ => exact absurd ⟨_, hl, he⟩ (hsilent _ _)
  | silent hl he _ _ => exact absurd ⟨_, hl, he⟩ (hsilent _ _)
  | read hl hc _ ih =>
      cases h' with
      | silent hl' he' _ => exact absurd ⟨_, hl', he'⟩ (hsilent _ _)
      | read hl' hc' hrest =>
          -- Both paths read the character on the same edge.
          have hsame := htarget _ _ _ _ ⟨_, hl, hc⟩ ⟨_, hl', hc'⟩
          subst hsame
          exact ih hrest

/-- From a state that covers an alphabet, as all others do, every word over it can be
read. -/
theorem Automaton.Covers.exists_path {a : Automaton} {alphabet : SymbolSet}
    (h : a.Covers alphabet) (ha : a.WellFormed) {p : StateId} (hp : p ∈ a.states)
    {w : List Char} (hw : ∀ c ∈ w, .char c ∈ alphabet) : ∃ q, Path a.table p w q := by
  induction w generalizing p with
  | nil => exact ⟨p, .nil p⟩
  | cons c w ih =>
      obtain ⟨m, g, hl, hc⟩ := h p hp _ (hw c List.mem_cons_self)
      have hm : m ∈ a.states := ha.target_mem p m g hl
      obtain ⟨q, hq⟩ := ih hm fun d hd => hw d (List.mem_cons_of_mem c hd)
      exact ⟨q, .read hl hc hq⟩

/-! ## §2. Runs. -/

/-- A set whose members are all the same has one member at most. -/
theorem OrderedSet.size_le_one {α : Type} [KeyOrder α] {s : OrderedSet α}
    (h : ∀ x ∈ s, ∀ y ∈ s, x = y) : s.size ≤ 1 := by
  obtain ⟨l, hl⟩ := s
  match l, hl with
  | [], _ => exact Nat.zero_le 1
  | [_], _ => exact Nat.le_refl 1
  | x :: y :: rest, hl =>
      have hxy : x < y := (List.pairwise_cons.1 hl).1 y List.mem_cons_self
      exact absurd (h x List.mem_cons_self y (List.mem_cons_of_mem x List.mem_cons_self))
        (KeyOrder.ne_of_lt hxy)

namespace Automaton

variable {a : Automaton} {supply : IdSupply} {w : List Char}

theorem size_advanceAll_begin_le_one (hdet : a.isDeterministic = true) (w : List Char) :
    ((Run.begin a).advanceAll a.table w).current.size ≤ 1 := by
  apply OrderedSet.size_le_one
  intro p hp q hq
  obtain ⟨s, hs, hps⟩ := Run.mem_current_advanceAll_begin.1 hp
  obtain ⟨s', hs', hqs⟩ := Run.mem_current_advanceAll_begin.1 hq
  cases hs.symm.trans hs'
  exact hps.end_unique hdet hqs

theorem size_advanceAll_begin_eq_one (ha : a.WellFormed) (hdet : a.isDeterministic = true)
    {alphabet : SymbolSet} (hcovers : a.Covers alphabet) {s : StateId} (hs : a.start = some s)
    (hw : ∀ c ∈ w, .char c ∈ alphabet) :
    ((Run.begin a).advanceAll a.table w).current.size = 1 := by
  obtain ⟨q, hpath⟩ := hcovers.exists_path ha (ha.start_mem s hs) hw
  have hq : q ∈ ((Run.begin a).advanceAll a.table w).current :=
    Run.mem_current_advanceAll_begin.2 ⟨s, hs, hpath⟩
  exact Nat.le_antisymm (size_advanceAll_begin_le_one hdet w) (List.length_pos_of_mem hq)

/-- Once completed an automaton covers its alphabet, with the same start, and it is
deterministic if it was. -/
theorem SuppliedBy.complete_covers (h : a.SuppliedBy supply) :
    let c := (a.complete supply).1
    c.WellFormed ∧ c.start = a.start ∧ c.Covers a.effectiveAlphabet
      ∧ c.isDeterministic = a.isDeterministic := by
  unfold complete
  obtain ⟨hcovers, hnone⟩ | ⟨c, sink, hsome, hc⟩ := h.complete?_spec
  · rw [hnone]
    exact ⟨h.wellFormed, rfl, hcovers, rfl⟩
  · dsimp only
    rw [hsome]
    exact ⟨hc.wellFormed, hc.start_eq, hc.covers, hc.isDeterministic_eq h.wellFormed⟩

end Automaton

/-! ## §3. Sessions. -/

/-- To complete a version is to complete its automaton, and it never fails. -/
theorem Workspace.Sound.perform_complete {w : Workspace} (h : w.Sound) {v : VersionId}
    (hv : v < w.versions.size) :
    ∃ done, w.perform v .complete = .ok done
      ∧ done.workspace.automaton done.version
        = ((w.automaton v).complete (w.supply (w.version v).lineage)).1 :=
  h.exists_perform (e := .complete) hv rfl

namespace Session

/-- **Deterministic automata run deterministically.**  If in any session the answer is
that a version is deterministic, then a simulation of it is in one state at most,
whatever it reads and after any number of steps.  The version can be completed, and a
simulation of what is answered that reads a word over the alphabet of the version to
the end is in exactly one state, provided that there is a start. -/
theorem deterministic_runs (calls : List Call) {v : VersionId}
    (hv : v < (empty.serveAll calls).workspace.versions.size)
    (hdet : ((empty.serveAll calls).workspace.ask v .isDeterministic).1 = .truth true) :
    let w := (empty.serveAll calls).workspace
    (∀ (word : List Char), ∀ k ≤ word.length, ∃ m,
        ((Simulation.ofAutomaton (w.automaton v) []).reset (some word)).steps k = .ok m
          ∧ m.current.size ≤ 1)
      ∧ ∃ alphabet done, (w.ask v .effectiveAlphabet).1 = .symbols alphabet
          ∧ w.perform v .complete = .ok done
          ∧ ((w.automaton v).start ≠ none → ∀ word : List Char,
              (∀ c ∈ word, .char c ∈ alphabet) →
              (((Simulation.ofAutomaton (done.workspace.automaton done.version) []).reset
                (some word)).runComplete []).current.size = 1) := by
  intro w
  have hw : w.Sound := (sound_empty.serveAll calls).workspace
  have hversion := Workspace.getElem?_version hv
  have hsupplied := (hw v _ hversion).inLineage.suppliedBy
  -- What is remembered is what the analysis gives.
  have hdet : (w.automaton v).isDeterministic = true := by
    have hanswer := (Workspace.ask_forget hw hversion .isDeterministic).1
    exact Answer.truth.inj (hanswer.symm.trans hdet)
  have halphabet := (Workspace.ask_forget hw hversion .effectiveAlphabet).1
  obtain ⟨done, hdone, hcompleted⟩ := hw.perform_complete hv
  refine ⟨?_, _, done, halphabet, hdone, ?_⟩
  · intro word k hk
    exact ⟨_, Simulation.steps_eq rfl hk,
      Automaton.size_advanceAll_begin_le_one hdet (word.take k)⟩
  · intro hstart word hword
    obtain ⟨s, hs⟩ := Option.ne_none_iff_exists'.1 hstart
    obtain ⟨hwf, hstart', hcovers, hdet'⟩ := hsupplied.complete_covers
    rw [hcompleted]
    have hread : ∀ c ∈ word ++ [], .char c ∈ (w.automaton v).effectiveAlphabet := by
      rwa [List.append_nil]
    exact Automaton.size_advanceAll_begin_eq_one hwf (hdet'.trans hdet) hcovers
      (hstart'.trans hs) hread

/-- Without an edge for a second letter the run ends in no state; completed it is in
the new one. -/
theorem deterministic_runs_threeStates :
    let w := (empty.serveAll threeStates).workspace
    7 < w.versions.size ∧ (w.ask 7 .isDeterministic).1 = .truth true
      ∧ (∃ m, ((Simulation.ofAutomaton (w.automaton 7) []).reset
            (some ['a', 'a'])).steps 2 = .ok m ∧ m.current.size ≤ 1)
      ∧ ∃ done, w.perform 7 .complete = .ok done
          ∧ (((Simulation.ofAutomaton (done.workspace.automaton done.version) []).reset
              (some ['a', 'a'])).runComplete []).current.size = 1 := by
  intro w
  have hsize : 7 < w.versions.size := by decide +kernel
  have hdet : (w.ask 7 .isDeterministic).1 = .truth true := by decide +kernel
  obtain ⟨hsteps, alphabet, done, halphabet, hdone, hone⟩ :=
    deterministic_runs threeStates hsize hdet
  have hletter : (w.ask 7 .effectiveAlphabet).1 = .symbols .letterA := by decide +kernel
  cases hletter.symm.trans halphabet
  have hstart : (w.automaton 7).start ≠ none := by decide +kernel
  have hword : ∀ c ∈ ['a', 'a'], .char c ∈ SymbolSet.letterA := by
    intro c hc
    obtain rfl : c = 'a' := by simpa using hc
    decide
  exact ⟨hsize, hdet, hsteps ['a', 'a'] 2 (by decide), done, hdone, hone hstart _ hword⟩

end Session

end FiniteAutomata
