/-
  FiniteAutomata.Proofs.Trimmed
  ─────────────────────────────
  **WHAT TRIMMING LEAVES IS TRIMMED.**

  What is reachable and what is generating is found out before any state goes.
  It stays so for the states that are kept: a link from the start to a kept state,
  or from a kept state to an accepting one, passes through kept states only, so no
  edge of it goes.

      mem_keptStates       the states that are kept
      trim_eq_restrictTo   trimming keeps them, whether or not some state goes
      isTrimmed_iff        an automaton is trimmed iff all its states are kept
      keptStates_trim      after trimming they are

  Main statement: everything that trimming leaves (`trim_leaves`).
-/
import FiniteAutomata.Proofs.Extensionality
import FiniteAutomata.Proofs.Lineage
import FiniteAutomata.Proofs.Trim

namespace FiniteAutomata.Automaton

variable {a : Automaton}

/-! ## §1. The states that are kept. -/

/-- The states that trimming keeps, by the analyses of the automaton. -/
def keptStates (a : Automaton) : StateSet := a.kept a.reachableStates a.generatingStates

theorem mem_keptStates {s : StateId} :
    s ∈ a.keptStates ↔ a.start = some s ∨ s ∈ a.reachableStates ∧ s ∈ a.generatingStates :=
  mem_kept

theorem start_mem_reachableStates {s : StateId} (h : a.start = some s) :
    s ∈ a.reachableStates :=
  mem_reachableStates.2 ⟨s, h, .refl s⟩

theorem mem_reachableStates_of_kept {s : StateId} (hs : s ∈ a.keptStates) :
    s ∈ a.reachableStates := by
  obtain hstart | ⟨hreach, _⟩ := mem_keptStates.1 hs
  · exact start_mem_reachableStates hstart
  · exact hreach

theorem trim?_eq_none_iff : a.trim? = none ↔ a.keptStates = a.states := by
  unfold trim? trimFor?
  show (if a.keptStates = a.states then none else some (a.restrictTo a.keptStates)) = none ↔ _
  by_cases hk : a.keptStates = a.states <;> simp [hk]

/-- **An automaton is trimmed iff all its states are kept.** -/
theorem WellFormed.isTrimmed_iff (h : a.WellFormed) :
    a.isTrimmed = true ↔ a.keptStates = a.states := by
  unfold isTrimmed isTrimmedFor
  rw [Bool.and_eq_true, decide_eq_true_iff, List.all_eq_true]
  simp only [Bool.or_eq_true, decide_eq_true_iff, OrderedSet.mem_toList]
  constructor
  · intro htrimmed
    obtain ⟨hreach, hgen⟩ := htrimmed
    refine OrderedSet.ext fun s => ?_
    rw [mem_keptStates, hreach]
    constructor
    · intro hs
      obtain hstart | ⟨hstate, _⟩ := hs
      · exact h.start_mem s hstart
      · exact hstate
    · intro hs
      obtain hstart | hg := hgen s hs
      · exact Or.inl hstart
      · exact Or.inr ⟨hs, hg⟩
  · intro hkept
    constructor
    · refine OrderedSet.ext fun s => ⟨h.mem_states_of_reachable, fun hs => ?_⟩
      exact mem_reachableStates_of_kept (hkept ▸ hs)
    · intro s hs
      exact (mem_keptStates.1 (hkept ▸ hs)).imp_right And.right

theorem WellFormed.isTrimmed_iff_trim?_eq_none (h : a.WellFormed) :
    a.isTrimmed = true ↔ a.trim? = none := by
  rw [h.isTrimmed_iff, trim?_eq_none_iff]

/-! ## §2. Trimming as a restriction. -/

theorem get?_names_restrictTo (keep : StateSet) (s : StateId) :
    (a.restrictTo keep).names.get? s = if s ∈ keep then a.names.get? s else none := by
  show (a.names.filter fun s _ => decide (s ∈ keep)).get? s = _
  rw [OrderedMap.get?_filter]
  by_cases hs : s ∈ keep <;> cases a.names.get? s <;> simp [Option.filter, hs]

/-- To keep all states changes nothing. -/
theorem WellFormed.restrictTo_states (h : a.WellFormed) : a.restrictTo a.states = a := by
  refine (h.restrictTo (fun _ hs => hs) h.start_mem).ext h rfl ?_ ?_ ?_ rfl
  · intro s
    rw [get?_names_restrictTo]
    by_cases hs : s ∈ a.states
    · rw [if_pos hs]
    · rw [if_neg hs, h.get?_names_eq_none hs]
  · intro s
    show s ∈ a.accept ∩ a.states ↔ _
    rw [OrderedSet.mem_inter]
    exact and_iff_left_of_imp (h.accept_subset s)
  · intro p q
    rw [label?_restrictTo]
    by_cases hpq : p ∈ a.states ∧ q ∈ a.states
    · rw [if_pos hpq]
    · -- An end of the edge is no state, so there is no edge.
      rw [if_neg hpq]
      cases hl : a.table.label? p q with
      | none => rfl
      | some g => exact absurd ⟨h.origin_mem hl, h.target_mem p q g hl⟩ hpq

theorem WellFormed.trim_eq_restrictTo (h : a.WellFormed) :
    a.trim = a.restrictTo a.keptStates := by
  unfold trim
  cases hb : a.trim? with
  | none =>
      have hkept : a.keptStates = a.states := trim?_eq_none_iff.1 hb
      rw [Option.getD_none, hkept, h.restrictTo_states]
  | some b => rw [Option.getD_some, trimFor?_eq_some hb, keptStates]

theorem WellFormed.trim (h : a.WellFormed) : a.trim.WellFormed := by
  rw [h.trim_eq_restrictTo]
  exact h.restrictTo (fun _ hs => h.mem_states_of_kept hs) fun _ hs => start_mem_kept hs

theorem WellFormed.states_trim (h : a.WellFormed) : a.trim.states = a.keptStates := by
  rw [h.trim_eq_restrictTo, states_restrictTo]

/-! ## §3. Links that stay. -/

/-- A link stays if every state on the way is kept. -/
theorem WellFormed.linked_restrictTo (h : a.WellFormed) {keep : StateSet} {p q : StateId}
    (hspans : a.table.Spans keep p q) (hl : Linked a.table.edges p q) :
    Linked (a.restrictTo keep).table.edges p q := by
  obtain ⟨w, hw⟩ := exists_path_of_linked h.label_nonempty hl
  exact (hw.restrictTo hspans).linked

/-- On the way from the start to a generating state all states are kept, and so they
are on the way from a reachable state to an accepting one. -/
theorem spans_keptStates {s p q f : StateId} (hs : a.start = some s)
    (hsp : Linked a.table.edges s p) (hf : f ∈ a.accept) (hqf : Linked a.table.edges q f) :
    a.table.Spans a.keptStates p q := by
  intro m hpm hmq
  exact mem_keptStates.2 (Or.inr ⟨mem_reachableStates.2 ⟨s, hs, hsp.trans hpm⟩,
    mem_generatingStates.2 ⟨f, hf, hmq.trans hqf⟩⟩)

theorem WellFormed.mem_reachableStates_restrictTo (h : a.WellFormed) {s : StateId}
    (hs : s ∈ a.keptStates) : s ∈ (a.restrictTo a.keptStates).reachableStates := by
  obtain hstart | ⟨hreach, hgen⟩ := mem_keptStates.1 hs
  · exact start_mem_reachableStates hstart
  · obtain ⟨p, hp, hps⟩ := mem_reachableStates.1 hreach
    obtain ⟨f, hf, hsf⟩ := mem_generatingStates.1 hgen
    exact mem_reachableStates.2
      ⟨p, hp, h.linked_restrictTo (spans_keptStates hp (.refl p) hf hsf) hps⟩

theorem WellFormed.mem_generatingStates_restrictTo (h : a.WellFormed) {s : StateId}
    (hreach : s ∈ a.reachableStates) (hgen : s ∈ a.generatingStates) :
    s ∈ (a.restrictTo a.keptStates).generatingStates := by
  obtain ⟨p, hp, hps⟩ := mem_reachableStates.1 hreach
  obtain ⟨f, hf, hsf⟩ := mem_generatingStates.1 hgen
  have hspans : a.table.Spans a.keptStates s f := spans_keptStates hp hps hf (.refl f)
  -- The accepting state at the end of the way is kept too.
  have hfkept : f ∈ a.keptStates := hspans f hsf (.refl f)
  exact mem_generatingStates.2
    ⟨f, OrderedSet.mem_inter.2 ⟨hf, hfkept⟩, h.linked_restrictTo hspans hsf⟩

/-- **All states that trimming leaves are kept by trimming.** -/
theorem WellFormed.keptStates_trim (h : a.WellFormed) : a.trim.keptStates = a.trim.states := by
  refine OrderedSet.ext fun s => ⟨?_, ?_⟩
  · exact fun hs => h.trim.mem_states_of_kept hs
  · intro hs
    have hkept : s ∈ a.keptStates := h.states_trim ▸ hs
    rw [h.trim_eq_restrictTo, mem_keptStates]
    obtain hstart | ⟨hreach, hgen⟩ := mem_keptStates.1 hkept
    · exact Or.inl hstart
    · exact Or.inr ⟨h.mem_reachableStates_restrictTo hkept,
        h.mem_generatingStates_restrictTo hreach hgen⟩

/-! ## §4. What trimming leaves. -/

/-- **What trimming leaves.**  Of any member of a lineage there are left the states
that are both reachable and generating, and the start; start and alphabet are as
they were, and so are the names of these states, which of them accept, and the
labels between them.  What is left is trimmed, and to trim it again changes nothing;
and trimming changes nothing in the first place iff the automaton is trimmed. -/
theorem trim_leaves {supply : IdSupply} (h : InLineage a supply) :
    let t := a.trim
    (∀ s, s ∈ t.states ↔
        a.start = some s ∨ s ∈ a.states ∧ s ∈ a.reachableStates ∧ s ∈ a.generatingStates)
      ∧ t.start = a.start ∧ t.alphabet = a.alphabet
      ∧ (∀ s ∈ t.states,
          t.names.get? s = a.names.get? s ∧ (s ∈ t.accept ↔ s ∈ a.accept))
      ∧ (∀ p ∈ t.states, ∀ q ∈ t.states, t.table.label? p q = a.table.label? p q)
      ∧ t.isTrimmed = true
      ∧ t.trim? = none
      ∧ (a.isTrimmed = true ↔ a.trim? = none) := by
  have hwf : a.WellFormed := h.suppliedBy.wellFormed
  have hstates : a.trim.states = a.keptStates := hwf.states_trim
  refine ⟨?_, ?_, ?_, ?_, ?_, ?_, ?_, hwf.isTrimmed_iff_trim?_eq_none⟩
  · intro s
    rw [hstates, mem_keptStates]
    refine or_congr_right (and_iff_right_of_imp ?_).symm
    exact fun hs => hwf.mem_states_of_reachable hs.1
  · rw [hwf.trim_eq_restrictTo]
    rfl
  · rw [hwf.trim_eq_restrictTo]
    rfl
  · intro s hs
    have hkept : s ∈ a.keptStates := hstates ▸ hs
    rw [hwf.trim_eq_restrictTo, get?_names_restrictTo, if_pos hkept]
    exact ⟨rfl, OrderedSet.mem_inter.trans (and_iff_left hkept)⟩
  · intro p hp q hq
    rw [hstates] at hp hq
    rw [hwf.trim_eq_restrictTo]
    exact label?_restrictTo_of_mem hp hq
  · exact hwf.trim.isTrimmed_iff.2 hwf.keptStates_trim
  · exact trim?_eq_none_iff.2 hwf.keptStates_trim

/-- The word `a`, and a third state that nothing leads to. -/
def oneLetterAndMore : Automaton := oneLetter.addState 3 defaultStateName

/-- The third state goes. -/
theorem trim_leaves_oneLetterAndMore :
    oneLetterAndMore.isTrimmed = false
      ∧ oneLetterAndMore.trim.states.toList = [1, 2]
      ∧ oneLetterAndMore.trim.isTrimmed = true
      ∧ oneLetterAndMore.trim.trim? = none := by
  have hmember : InLineage oneLetterAndMore _ :=
    inLineage_oneLetter.edited (e := .addState defaultStateName) rfl rfl
  obtain ⟨_, _, _, _, _, htrimmed, hagain, _⟩ := trim_leaves hmember
  exact ⟨by decide +kernel, by decide +kernel, htrimmed, hagain⟩

end FiniteAutomata.Automaton
