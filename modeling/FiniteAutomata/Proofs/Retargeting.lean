/-
  FiniteAutomata.Proofs.Retargeting
  ─────────────────────────────────
  **AN EDGE THAT MOVES TAKES ITS SYMBOLS ALONG.**

  To give an edge another target takes it out of its row and merges it into the edge
  that stands at its new place, if there is one; either of them may be a loop or read
  nothing.  No symbol is gained or lost on the way (`outgoing_of_moveEdge?`), and as long
  as nothing stood at the new place, the way back leads to the automaton that there was:

      moveEdge?_of_label?    an edge that is there can move to any other place
      moveEdge?_back         the way back

  Main statement: `retargeting_conserves`.
-/
import FiniteAutomata.Proofs.Extensionality
import FiniteAutomata.Proofs.Lineage
import FiniteAutomata.Proofs.Survival

namespace FiniteAutomata.Automaton

variable {a b : Automaton} {o x y : StateId} {g : SymbolSet} {supply : IdSupply}

/-! ## §1. Edges between states. -/

/-- An edge that is there can move to any other place. -/
theorem moveEdge?_of_label? (hxy : x ≠ y) (hl : a.table.label? o x = some g) :
    ∃ b, a.moveEdge? o x y = some b := by
  unfold moveEdge?
  rw [if_neg hxy, hl]
  exact ⟨_, rfl⟩

/-- Between states the references are followed as they are. -/
theorem setTransitionTarget?_id (ho : o ∈ a.states) (hx : x ∈ a.states) (hy : y ∈ a.states) :
    a.setTransitionTarget? (.id o) (.id x) (.id y) = a.moveEdge? o x y := by
  have hresolve : ∀ {s}, s ∈ a.states → a.resolve? (.id s) = some s :=
    fun hs => resolve?_eq_some_iff.2 ⟨rfl, hs⟩
  unfold setTransitionTarget?
  rw [hresolve ho, hresolve hx, hresolve hy]

/-- A move changes the table only. -/
theorem eq_of_moveEdge? (h : a.moveEdge? o x y = some b) : b = { a with table := b.table } := by
  obtain ⟨_, _, _, rfl⟩ := moveEdge?_eq_some h
  rfl

theorem states_of_moveEdge? (h : a.moveEdge? o x y = some b) : b.states = a.states := by
  rw [eq_of_moveEdge? h]

/-! ## §2. There and back. -/

/-- **The way back.**  What moved to a place where nothing stood can move back, and then
the automaton is the one that there was. -/
theorem WellFormed.moveEdge?_back (ha : a.WellFormed) (hy : y ∈ a.states)
    (h : a.moveEdge? o x y = some b) (hfree : a.table.label? o y = none) :
    b.moveEdge? o y x = some a := by
  have hxy : x ≠ y := (moveEdge?_eq_some h).1
  obtain ⟨g, hg, _⟩ := label?_of_moveEdge? h
  have ho : o ∈ a.states := ha.origin_mem hg
  have hx : x ∈ a.states := ha.target_mem o x g hg
  -- Nothing was there to merge with, and nothing is when the symbols come back.
  have hunion : g ∪ (none : Option SymbolSet).getD ∅ = g := SymbolSet.ext fun z => by simp
  have hmoved : b.table.label? o y = some g := by
    rw [label?_new_of_moveEdge? h hg, hfree, hunion]
  obtain ⟨c, hc⟩ := moveEdge?_of_label? hxy.symm hmoved
  have hreturned : c.table.label? o x = some g := by
    rw [label?_new_of_moveEdge? hc hmoved, label?_old_of_moveEdge? h, hunion]
  have hb : b.WellFormed := ha.moveEdge ho hy h
  have hcwf : c.WellFormed :=
    hb.moveEdge (states_of_moveEdge? h ▸ ho) (states_of_moveEdge? h ▸ hx) hc
  have hparts : c = { a with table := c.table } := by
    rw [eq_of_moveEdge? hc, eq_of_moveEdge? h]
  have hlabels : ∀ p q, c.table.label? p q = a.table.label? p q := by
    intro p q
    by_cases hpq : p = o ∧ (q = x ∨ q = y)
    · obtain ⟨rfl, rfl | rfl⟩ := hpq
      · rw [hreturned, hg]
      · rw [label?_old_of_moveEdge? hc, hfree]
    · rw [label?_other_of_moveEdge? hc (by rwa [or_comm]), label?_other_of_moveEdge? h hpq]
  rw [hc]
  refine congrArg some (hcwf.ext ha ?_ ?_ ?_ hlabels ?_) <;> rw [hparts]
  · exact fun _ => rfl
  · exact fun _ => Iff.rfl

/-! ## §3. What a move conserves. -/

/-- **Retargeting conserves symbols.**  In any member of a lineage an edge can move to
any other state.  It is gone then, its symbols are at the new place together with those
that stood there, and nothing else is different.  Each origin keeps the symbols on its
edges and so the automaton its minimal alphabet, and it stays deterministic if it is.
If nothing stood at the new place, then the edge can move back, and the automaton is
the one that there was. -/
theorem retargeting_conserves (h : InLineage a supply) (hxy : x ≠ y) (hy : y ∈ a.states)
    (hl : a.table.label? o x = some g) :
    ∃ b, a.setTransitionTarget? (.id o) (.id x) (.id y) = some b
      ∧ b = { a with table := b.table }
      ∧ b.table.label? o x = none
      ∧ b.table.label? o y = some (g ∪ (a.table.label? o y).getD ∅)
      ∧ (∀ p q, ¬ (p = o ∧ (q = x ∨ q = y)) → b.table.label? p q = a.table.label? p q)
      ∧ (∀ p, b.table.outgoing p = a.table.outgoing p)
      ∧ b.minimalAlphabet = a.minimalAlphabet
      ∧ (a.isDeterministic = true → b.isDeterministic = true)
      ∧ (a.table.label? o y = none →
          b.setTransitionTarget? (.id o) (.id y) (.id x) = some a) := by
  have ha : a.WellFormed := h.suppliedBy.wellFormed
  have ho : o ∈ a.states := ha.origin_mem hl
  have hx : x ∈ a.states := ha.target_mem o x g hl
  obtain ⟨b, hb⟩ := moveEdge?_of_label? hxy hl
  have hstates := states_of_moveEdge? hb
  refine ⟨b, (setTransitionTarget?_id ho hx hy).trans hb, eq_of_moveEdge? hb,
    label?_old_of_moveEdge? hb, label?_new_of_moveEdge? hb hl,
    fun p q => label?_other_of_moveEdge? hb, fun p => (outgoing_of_moveEdge? hb p).symm,
    (minimalAlphabet_of_moveEdge? hb).symm, isDeterministic_of_moveEdge? hb, ?_⟩
  intro hfree
  rw [setTransitionTarget?_id (hstates ▸ ho) (hstates ▸ hy) (hstates ▸ hx)]
  exact ha.moveEdge?_back hy hb hfree

/-- The only edge becomes a loop, and it comes back. -/
theorem retargeting_conserves_oneLetter :
    ∃ b, oneLetter.setTransitionTarget? (.id 1) (.id 2) (.id 1) = some b
      ∧ b.table.label? 1 2 = none
      ∧ b.table.label? 1 1 = some .letterA
      ∧ b.setTransitionTarget? (.id 1) (.id 1) (.id 2) = some oneLetter := by
  obtain ⟨b, hb, _, hgone, hmoved, _, _, _, _, hback⟩ :=
    retargeting_conserves (o := 1) (x := 2) (y := 1) (g := .letterA) inLineage_oneLetter
      (by decide) (by decide +kernel) (by decide +kernel)
  refine ⟨b, hb, hgone, ?_, hback (by decide +kernel)⟩
  rw [hmoved]
  decide +kernel

end FiniteAutomata.Automaton
