/-
  FiniteAutomata.Proofs.Extensionality
  ────────────────────────────────────
  **AUTOMATA WITH THE SAME PARTS ARE EQUAL.**

  Sets, rows and tables have one form each, so what can be looked up in them
  determines them.  In a well-formed automaton the rows are those of the states,
  and no edge is there for nothing; so its edges are determined by its labels,
  and its labels by which symbols are on which edges:

      label?_eq_of_carries   labels with the same symbols
      WellFormed.carries_iff_label?
                             the label of an edge with given symbols
      Table.eq_of_label?     tables with the same labels
      WellFormed.ext         automata
-/
import FiniteAutomata.Proofs.Path
import FiniteAutomata.Proofs.WellFormed

namespace FiniteAutomata

/-! ## §1. Tables. -/

/-- Tables with rows for the same states and the same labels are equal. -/
theorem Table.eq_of_label? {t t' : Table} (hkeys : t.keys = t'.keys)
    (hlabel : ∀ p q, t.label? p q = t'.label? p q) : t = t' := by
  refine OrderedMap.ext fun p => ?_
  have hrow : t.row p = t'.row p := OrderedMap.ext (hlabel p)
  unfold row OrderedMap.getD at hrow
  cases hp : t.get? p with
  | none =>
      rw [OrderedMap.get?_eq_none_iff, hkeys] at hp
      exact (OrderedMap.get?_eq_none_iff.2 hp).symm
  | some r =>
      have hmem : p ∈ t'.keys := hkeys ▸ OrderedMap.mem_keys.2 ⟨r, hp⟩
      obtain ⟨r', hr'⟩ := OrderedMap.mem_keys.1 hmem
      rw [hp, hr'] at hrow
      rw [hr']
      exact congrArg some hrow

namespace Automaton

variable {a f : Automaton}

/-- An edge with a label that matches something is where its symbols are. -/
theorem label?_of_carries {t t' : Table} {o q o' q' : StateId} {g : SymbolSet}
    (h : ∀ x, t'.Carries o' q' x ↔ t.Carries o q x) (hl : t.label? o q = some g)
    (hg : g ≠ ∅) : t'.label? o' q' = some g := by
  obtain ⟨x, hx⟩ := SymbolSet.exists_mem hg
  obtain ⟨g', hl', _⟩ := (h x).2 ⟨g, hl, hx⟩
  rw [hl']
  refine congrArg some (SymbolSet.ext fun y => ?_)
  rw [← Table.carries_iff hl', h y, Table.carries_iff hl]

/-- Labels that match something are the same if they have the same symbols. -/
theorem label?_eq_of_carries (ha : a.WellFormed) (hf : f.WellFormed) {s t p q : StateId}
    (h : ∀ x, f.table.Carries p q x ↔ a.table.Carries s t x) :
    f.table.label? p q = a.table.label? s t := by
  apply Option.ext
  intro g
  constructor
  · intro hl
    exact label?_of_carries (fun x => (h x).symm) hl (hf.label_nonempty p q g hl)
  · intro hl
    exact label?_of_carries h hl (ha.label_nonempty s t g hl)

/-- Where no edge has a symbol there is no edge. -/
theorem label?_eq_none_of_not_carries (hf : f.WellFormed) {p q : StateId}
    (h : ∀ x, ¬ f.table.Carries p q x) : f.table.label? p q = none := by
  cases hl : f.table.label? p q with
  | none => rfl
  | some g =>
      obtain ⟨x, hx⟩ := SymbolSet.exists_mem (hf.label_nonempty p q g hl)
      exact absurd ⟨g, hl, hx⟩ (h x)

/-- An edge has exactly the symbols of a set iff they are its label, or it is not there
and there are none. -/
theorem WellFormed.carries_iff_label? (h : a.WellFormed) {p q : StateId} {g : SymbolSet} :
    (∀ x, a.table.Carries p q x ↔ x ∈ g)
      ↔ a.table.label? p q = if g.isEmpty then none else some g := by
  by_cases hg : g = ∅
  · rw [if_pos (SymbolSet.isEmpty_iff.2 hg)]
    subst hg
    constructor
    · exact fun hall =>
        label?_eq_none_of_not_carries h fun x hx => SymbolSet.not_mem_nothing x ((hall x).1 hx)
    · exact fun hl x => iff_of_false (Table.not_carries hl x) (SymbolSet.not_mem_nothing x)
  · rw [if_neg (mt SymbolSet.isEmpty_iff.1 hg)]
    constructor
    · intro hall
      obtain ⟨x, hx⟩ := SymbolSet.exists_mem hg
      obtain ⟨g', hl, _⟩ := (hall x).2 hx
      rw [hl]
      exact congrArg some (SymbolSet.ext fun y => (Table.carries_iff hl).symm.trans (hall y))
    · exact fun hl x => Table.carries_iff hl

/-! ## §2. Automata. -/

/-- Well-formed automata with the same start, names, accepting states, labels and
alphabet are equal. -/
theorem WellFormed.ext (ha : a.WellFormed) (hf : f.WellFormed) (hstart : a.start = f.start)
    (hnames : ∀ s, a.names.get? s = f.names.get? s) (haccept : ∀ s, s ∈ a.accept ↔ s ∈ f.accept)
    (hlabel : ∀ p q, a.table.label? p q = f.table.label? p q)
    (halphabet : a.alphabet = f.alphabet) : a = f := by
  have hnames : a.names = f.names := OrderedMap.ext hnames
  have hstates : a.states = f.states := by rw [← ha.keys_names, ← hf.keys_names, hnames]
  have haccept : a.accept = f.accept := OrderedSet.ext haccept
  have htable : a.table = f.table := by
    refine Table.eq_of_label? ?_ hlabel
    rw [ha.keys_table, hf.keys_table, hstates]
  cases a
  cases f
  simp_all

end Automaton

end FiniteAutomata
