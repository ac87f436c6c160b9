/-
  FiniteAutomata.Graph.Analyses
  ─────────────────────────────
  What can be read off a transition table.

  Reachable and generating ids, the closure under edges that consume no input,
  the predecessors of each target, determinism, and the symbols in use.
-/
import FiniteAutomata.Graph.Saturation

namespace FiniteAutomata.Table

/-- The ids that edges lead to from the start, the start among them. -/
def reachable (t : Table) (start : Option StateId) : StateSet :=
  match start with
  | none => ∅
  | some s => (saturate (OrderedSet.singleton s) t.edges).seen

/-- The ids from which edges lead to an accepting id, those among them. -/
def generating (t : Table) (accept : StateSet) : StateSet :=
  (saturate accept (t.edges.map Edge.reverse)).seen

theorem mem_reachable {t : Table} {start : Option StateId} {q : StateId} :
    q ∈ t.reachable start ↔ ∃ s, start = some s ∧ Linked t.edges s q := by
  unfold reachable
  cases start with
  | none =>
      refine iff_of_false (OrderedSet.not_mem_empty q) ?_
      intro h
      obtain ⟨s, hs, _⟩ := h
      cases hs
  | some s =>
      rw [mem_saturate]
      constructor
      · intro h
        obtain ⟨p, hp, hl⟩ := h
        exact ⟨s, rfl, OrderedSet.mem_singleton.1 hp ▸ hl⟩
      · intro h
        obtain ⟨p, hp, hl⟩ := h
        injection hp with hp
        exact ⟨s, OrderedSet.mem_singleton.2 rfl, hp ▸ hl⟩

/-- An id is generating iff edges lead from it to an accepting one. -/
theorem mem_generating {t : Table} {accept : StateSet} {s : StateId} :
    s ∈ t.generating accept ↔ ∃ f ∈ accept, Linked t.edges s f := by
  unfold generating
  rw [mem_saturate]
  simp only [Linked.reverse_iff]

/-- The ids that some ids lead to along edges that consume no input, and the
edges followed on the way. -/
def closure (t : Table) (ids : StateSet) : Saturation := saturate ids t.emptyEdges

/-- The origins of the edges to each target. -/
def predecessors (t : Table) : OrderedMap StateId StateSet :=
  t.edges.foldl
    (fun m e => m.insert e.target (OrderedSet.insert e.origin (m.getD e.target ∅))) ∅

/-- Whether a row consumes a symbol on every edge and no symbol on two edges. -/
def isDeterministicRow (r : Row) : Bool :=
  -- An empty symbol on an edge is a choice even if no other edge has it.
  !r.values.any SymbolSet.hasEmpty && !SymbolSet.shareAny r.values

/-- Whether every row is deterministic. -/
def isDeterministic (t : Table) : Bool := t.values.all isDeterministicRow

/-- The characters on the edges. -/
def minimalAlphabet (t : Table) : SymbolSet :=
  (SymbolSet.unionAll t.labels).withoutEmpty

theorem mem_minimalAlphabet {t : Table} {x : Symbol} :
    x ∈ t.minimalAlphabet ↔ x ≠ .empty ∧ ∃ s ∈ t.labels, x ∈ s := by
  rw [minimalAlphabet, SymbolSet.mem_withoutEmpty, SymbolSet.mem_unionAll, and_comm]

end FiniteAutomata.Table
