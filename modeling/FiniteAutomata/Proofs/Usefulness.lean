/-
  FiniteAutomata.Proofs.Usefulness
  ────────────────────────────────
  **THE ANALYSES SAY WHAT WORDS CAN DO.**

  The analyses follow edges and do not look at labels.  On a well-formed automaton
  they mean what words say all the same, because every edge has a symbol that a
  word can be extended by:

      reachable    some word leads there from the start
      generating   some word leads from there to an accepting state

  So a state is reachable iff some run gets into it, and generating iff the
  automaton accepts some word once the state is made its start
  (`useful_iff_exists_word`).
-/
import FiniteAutomata.Proofs.Trim
import FiniteAutomata.Proofs.Verdict

namespace FiniteAutomata

namespace Automaton

variable {a : Automaton}

/-! ## §1. Words instead of links. -/

/-- A complete run gets to the ends of the paths that read its word. -/
theorem mem_current_runComplete {w : List Char} {s : StateId} :
    s ∈ (((Simulation.ofAutomaton a []).reset (some w)).runComplete []).current ↔
      ∃ p, a.start = some p ∧ Path a.table p w s := by
  show s ∈ ((Run.begin a).advanceAll a.table (w ++ [])).current ↔ _
  rw [List.append_nil]
  exact Run.mem_current_advanceAll_begin

/-! ## §2. Another start. -/

/-- A state that is made the start is the start afterwards, whether or not it was
before. -/
theorem WellFormed.getD_setStart? (h : a.WellFormed) {s : StateId} (hs : s ∈ a.states) :
    (a.setStart? (.id s)).getD a = { a with start := some s } := by
  have hzero : StateRef.id s ≠ .id 0 := by
    intro e
    injection e with e
    exact Int.lt_irrefl 0 (e ▸ h.positive s hs)
  have hresolve : a.resolve? (.id s) = some s := resolve?_eq_some_iff.2 ⟨rfl, hs⟩
  unfold setStart?
  rw [if_neg hzero, hresolve]
  dsimp only
  by_cases hstart : a.start = some s
  · rw [if_pos hstart, ← hstart]
    rfl
  · rw [if_neg hstart]
    rfl

/-- Made the start, a state accepts the words that lead from it to an accepting
state. -/
theorem WellFormed.accepts_setStart_iff (h : a.WellFormed) {s : StateId} (hs : s ∈ a.states)
    {w : List Char} :
    ((a.setStart? (.id s)).getD a).accepts w = true ↔ ∃ f ∈ a.accept, Path a.table s w f := by
  rw [h.getD_setStart? hs, accepts_iff]
  constructor
  · intro hacc
    obtain ⟨p, hp, hpath⟩ := hacc
    injection hp with hp
    exact hp ▸ hpath
  · exact fun hpath => ⟨s, rfl, hpath⟩

/-! ## §3. What the analyses mean. -/

/-- **The analyses say what words can do.**  A state of an automaton is reachable
iff some word brings a complete run into it, and it is generating iff the automaton
accepts some word once the state is made its start. -/
theorem useful_iff_exists_word {supply : IdSupply} (h : InLineage a supply) {s : StateId}
    (hs : s ∈ a.states) :
    (s ∈ a.reachableStates ↔ ∃ w,
        s ∈ (((Simulation.ofAutomaton a []).reset (some w)).runComplete []).current)
      ∧ (s ∈ a.generatingStates ↔ ∃ w, ((a.setStart? (.id s)).getD a).accepts w = true) := by
  have ha := h.suppliedBy.wellFormed
  constructor
  · rw [ha.mem_reachableStates_iff]
    simp only [mem_current_runComplete]
  · rw [ha.mem_generatingStates_iff]
    simp only [ha.accepts_setStart_iff hs]

/-- The second state of one letter is reached by the word `a`, and accepts the empty
word by itself. -/
theorem useful_iff_exists_word_oneLetter :
    InLineage oneLetter .afterOneLetter ∧ (2 : StateId) ∈ oneLetter.states
      ∧ (∃ w, (2 : StateId) ∈
          (((Simulation.ofAutomaton oneLetter []).reset (some w)).runComplete []).current)
      ∧ ∃ w, ((oneLetter.setStart? (.id 2)).getD oneLetter).accepts w = true := by
  have hmem : (2 : StateId) ∈ oneLetter.states := by decide +kernel
  obtain ⟨hreach, hgen⟩ := useful_iff_exists_word inLineage_oneLetter hmem
  exact ⟨inLineage_oneLetter, hmem, hreach.1 (by decide +kernel), hgen.1 (by decide +kernel)⟩

end Automaton

end FiniteAutomata
