/-
  FiniteAutomata.Proofs.Trim
  ──────────────────────────
  **TRIMMING CHANGES NO ANSWER.**

  Trimming keeps the states that are both reachable and generating, and all edges
  between them.  A path from the start to an accepting state visits no other
  state: each state on it is reachable by what comes before and generating by
  what comes after.  So such a path is a path of the trimmed automaton too.

      Path.restrictTo      paths inside the kept states stay paths
      accepts_restrictTo   the language, for any states kept that include those
      accepts_trim         the language of the trimmed automaton
-/
import FiniteAutomata.Proofs.Survival

namespace FiniteAutomata

/-! ## §1. Paths inside the kept states. -/

/-- `Table.Spans t keep p q`: the set has every state that edges lead to from `p`
and that edges lead from to `q`. -/
def Table.Spans (t : Table) (keep : StateSet) (p q : StateId) : Prop :=
  ∀ m, Linked t.edges p m → Linked t.edges m q → m ∈ keep

/-- Behind an edge the rest is spanned too, and both ends of the edge are in the
set. -/
theorem Table.Spans.step {t : Table} {keep : StateSet} {p m q : StateId} {g : SymbolSet}
    (h : t.Spans keep p q) (hl : t.label? p m = some g) (hmq : Linked t.edges m q) :
    p ∈ keep ∧ m ∈ keep ∧ t.Spans keep m q := by
  have hpm : Linked t.edges p m := linked_of_label? hl
  exact ⟨h p (.refl p) (hpm.trans hmq), h m hpm hmq, fun n hmn hnq => h n (hpm.trans hmn) hnq⟩

variable {a : Automaton} {keep : StateSet}

theorem Automaton.label?_restrictTo_of_mem {o m : StateId} (ho : o ∈ keep) (hm : m ∈ keep) :
    (a.restrictTo keep).table.label? o m = a.table.label? o m := by
  rw [label?_restrictTo, if_pos ⟨ho, hm⟩]

theorem Automaton.carries_restrictTo_iff {p q : StateId} {x : Symbol} :
    (a.restrictTo keep).table.Carries p q x
      ↔ (p ∈ keep ∧ q ∈ keep) ∧ a.table.Carries p q x := by
  unfold Table.Carries
  rw [label?_restrictTo]
  by_cases hpq : p ∈ keep ∧ q ∈ keep <;> simp [hpq]

/-- A path stays a path if every state between its ends is kept. -/
theorem Path.restrictTo {p q : StateId} {w : List Char} (h : Path a.table p w q)
    (hkeep : a.table.Spans keep p q) : Path (a.restrictTo keep).table p w q := by
  induction h with
  | nil p => exact .nil p
  | silent hl he hrest ih =>
      obtain ⟨hp, hm, hspans⟩ := hkeep.step hl hrest.linked
      rw [← Automaton.label?_restrictTo_of_mem hp hm] at hl
      exact .silent hl he (ih hspans)
  | read hl hc hrest ih =>
      obtain ⟨hp, hm, hspans⟩ := hkeep.step hl hrest.linked
      rw [← Automaton.label?_restrictTo_of_mem hp hm] at hl
      exact .read hl hc (ih hspans)

/-- No path comes from removing states. -/
theorem Path.of_restrictTo {p q : StateId} {w : List Char}
    (h : Path (a.restrictTo keep).table p w q) : Path a.table p w q :=
  h.mono fun _ _ _ hx => (Automaton.carries_restrictTo_iff.1 hx).2

/-! ## §2. The language. -/

namespace Automaton

/-- Reachable states are those that some word leads to from the start. -/
theorem WellFormed.mem_reachableStates_iff (h : a.WellFormed) {s : StateId} :
    s ∈ a.reachableStates ↔ ∃ w, ∃ p, a.start = some p ∧ Path a.table p w s := by
  rw [mem_reachableStates]
  constructor
  · intro hs
    obtain ⟨p, hp, hl⟩ := hs
    obtain ⟨w, hw⟩ := exists_path_of_linked h.label_nonempty hl
    exact ⟨w, p, hp, hw⟩
  · intro hs
    obtain ⟨w, p, hp, hw⟩ := hs
    exact ⟨p, hp, hw.linked⟩

/-- The words accepted are the same if all states are kept that are both reachable
and generating. -/
theorem accepts_restrictTo
    (hkeep : ∀ s ∈ a.reachableStates, s ∈ a.generatingStates → s ∈ keep) (w : List Char) :
    (a.restrictTo keep).accepts w = a.accepts w := by
  rw [Bool.eq_iff_iff, accepts_iff, accepts_iff]
  constructor
  · intro h
    obtain ⟨s, hs, f, hf, hpath⟩ := h
    exact ⟨s, hs, f, (OrderedSet.mem_inter.1 hf).1, hpath.of_restrictTo⟩
  · intro h
    obtain ⟨s, hs, f, hf, hpath⟩ := h
    have hspans : a.table.Spans keep s f := by
      intro m hsm hmf
      exact hkeep m (mem_reachableStates.2 ⟨s, hs, hsm⟩) (mem_generatingStates.2 ⟨f, hf, hmf⟩)
    have hfkeep : f ∈ keep := hspans f hpath.linked (.refl f)
    exact ⟨s, hs, f, OrderedSet.mem_inter.2 ⟨hf, hfkeep⟩, hpath.restrictTo hspans⟩

/-- **Trimming changes no answer.**  An automaton accepts the same words after it is
trimmed, whether or not it has a start state and whether or not that is kept only
as the start. -/
theorem accepts_trim (a : Automaton) (w : List Char) : a.trim.accepts w = a.accepts w := by
  unfold trim
  cases hb : a.trim? with
  | none => rfl
  | some b =>
      rw [Option.getD_some, trimFor?_eq_some hb]
      exact accepts_restrictTo (fun s hr hg => mem_kept.2 (Or.inr ⟨hr, hg⟩)) w

end Automaton

end FiniteAutomata
