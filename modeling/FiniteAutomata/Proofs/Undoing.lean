/-
  FiniteAutomata.Proofs.Undoing
  ─────────────────────────────
  **TRIMMING UNDOES COMPLETION.**

  Completion may make states reachable that were not, through a sink that is used
  again, and it changes edges of every state.  But what it adds leads into a state
  that is not generating, and no edge leads from there to a generating one.  So
  the states that are both reachable and generating are the same before and after,
  and no edge between two of them has changed.

      CompletedTo.keptStates_eq   trimming keeps the same states
      CompletedTo.restrictTo_eq   of which the same is left

  A start that is not generating is kept as the start only, and then it may be the
  sink; with any other start trimming undoes completion (`trim_complete`).
-/
import FiniteAutomata.Proofs.Coverage
import FiniteAutomata.Proofs.Trimmed

namespace FiniteAutomata.Automaton

variable {a c : Automaton} {sink : StateId} {supply : IdSupply}

namespace CompletedTo

/-- A state that is reached through the sink only is not generating. -/
theorem mem_reachableStates_iff (h : a.CompletedTo c sink) (ha : a.WellFormed) {s : StateId}
    (hgen : s ∈ a.generatingStates) : s ∈ c.reachableStates ↔ s ∈ a.reachableStates := by
  rw [h.wellFormed.mem_reachableStates_iff, ha.mem_reachableStates_iff, h.start_eq]
  exact exists_congr fun w => exists_congr fun p => and_congr_right fun _ => h.path_iff hgen

/-- **Trimming keeps the same states** before and after a completion. -/
theorem keptStates_eq (h : a.CompletedTo c sink) (ha : a.WellFormed) :
    c.keptStates = a.keptStates := by
  refine OrderedSet.ext fun s => ?_
  rw [mem_keptStates, mem_keptStates, h.start_eq, h.generatingStates_eq ha]
  exact or_congr_right (and_congr_left fun hgen => h.mem_reachableStates_iff ha hgen)

/-- Of states that were there and are not the sink, the same is left before and after
a completion. -/
theorem restrictTo_eq (h : a.CompletedTo c sink) (ha : a.WellFormed) {keep : StateSet}
    (hstart : ∀ s, a.start = some s → s ∈ keep) (hstates : ∀ s ∈ keep, s ∈ a.states)
    (hsink : sink ∉ keep) : c.restrictTo keep = a.restrictTo keep := by
  have hstates' : ∀ s ∈ keep, s ∈ c.states := fun s hs => (h.mem_states s).2 (Or.inr (hstates s hs))
  refine (h.wellFormed.restrictTo hstates' fun s hs => hstart s (h.start_eq ▸ hs)).ext
    (ha.restrictTo hstates hstart) h.start_eq ?_ ?_ ?_ h.alphabet_eq
  · intro s
    rw [get?_names_restrictTo, get?_names_restrictTo]
    by_cases hs : s ∈ keep
    · rw [if_pos hs, if_pos hs, h.names_eq s (hstates s hs)]
    · rw [if_neg hs, if_neg hs]
  · intro s
    show s ∈ c.accept ∩ keep ↔ s ∈ a.accept ∩ keep
    rw [h.accept_eq]
  · intro p q
    rw [label?_restrictTo, label?_restrictTo]
    by_cases hpq : p ∈ keep ∧ q ∈ keep
    · have hq : q ≠ sink := fun e => hsink (e ▸ hpq.2)
      rw [if_pos hpq, if_pos hpq, h.label?_eq_of_ne_sink ha p hq]
    · rw [if_neg hpq, if_neg hpq]

end CompletedTo

/-- **Trimming undoes completion.**  If the start of a member of a lineage is
generating, or if there is none, then the completed automaton is trimmed to what the
automaton itself is trimmed to. -/
theorem trim_complete (h : InLineage a supply)
    (hstart : ∀ s, a.start = some s → s ∈ a.generatingStates) :
    (a.complete supply).1.trim = a.trim := by
  have hwf := h.suppliedBy.wellFormed
  unfold complete
  dsimp only
  obtain ⟨_, hnone⟩ | ⟨c, sink, hsome, hc⟩ := h.suppliedBy.complete?_spec
  · rw [hnone, Option.getD_none]
  · rw [hsome, Option.getD_some, hc.wellFormed.trim_eq_restrictTo, hwf.trim_eq_restrictTo,
      hc.keptStates_eq hwf]
    refine hc.restrictTo_eq hwf (fun s hs => start_mem_kept hs) ?_ ?_
    · exact fun s hs => hwf.mem_states_of_kept hs
    · intro hsink
      -- The sink is not generating, so neither is it the start.
      obtain hs | ⟨_, hgen⟩ := mem_keptStates.1 hsink
      · exact hc.dead (hstart sink hs)
      · exact hc.dead hgen

/-- The sink goes again. -/
theorem trim_complete_oneLetter :
    (oneLetter.complete .afterOneLetter).1 ≠ oneLetter
      ∧ (oneLetter.complete .afterOneLetter).1.trim = oneLetter.trim := by
  have hstart : ∀ s, oneLetter.start = some s → s ∈ oneLetter.generatingStates := by
    intro s hs
    cases hs
    decide +kernel
  exact ⟨by decide +kernel, trim_complete inLineage_oneLetter hstart⟩

/-- One state, the start, and nothing to accept. -/
def deadStart : Automaton where
  start := some 1
  states := .singleton 1
  names := .ofList [(1, .null)]
  accept := ∅
  table := .ofList [(1, ∅)]
  alphabet := some .letterA

/-- A start that is not generating is the sink, and it is kept with its loop. -/
example : (deadStart.complete .fresh).1.trim.table.label? 1 1 = some .letterA
    ∧ deadStart.trim.table.label? 1 1 = none := by
  decide +kernel

end FiniteAutomata.Automaton
