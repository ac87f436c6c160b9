/-
  FiniteAutomata.Proofs.Directions
  ────────────────────────────────
  **FORWARD AND BACKWARD AGREE.**

  What an id leads to is found forward, along the rows of a table; what leads to an
  accepting id is found backward, along an index of the origins of each target.  The
  index turns every edge round and adds none, and a link along reversed edges is a link
  the other way.  So an id is found backward iff something accepting is found forward.

      mem_predecessors      the index has the origins of the edges to each target
      indexes_entering      hence it serves the reversed edges by their new origin

  Main statement: `Table.generating_iff_reachable_meets`, for all tables and ids, and for
  every search in either direction.
-/
import FiniteAutomata.Graph.Search
import FiniteAutomata.Proofs.Survival

namespace FiniteAutomata.Table

variable {t : Table} {o q : StateId}

/-! ## §1. The index of origins. -/

/-- An index with one more edge. -/
theorem mem_getD_insert_origin {m : OrderedMap StateId StateSet} {e : Edge} :
    o ∈ (m.insert e.target (OrderedSet.insert e.origin (m.getD e.target ∅))).getD q ∅
      ↔ ⟨o, q⟩ = e ∨ o ∈ m.getD q ∅ := by
  obtain ⟨origin, target⟩ := e
  rw [OrderedMap.getD, OrderedMap.get?_insert, Edge.mk.injEq]
  by_cases hq : q = target
  · subst hq
    rw [if_pos rfl, Option.getD_some, OrderedSet.mem_insert]
    simp
  · rw [if_neg hq, or_iff_right fun h => hq h.2]
    rfl

/-- **The index has the origins of the edges to each target.** -/
theorem mem_predecessors : o ∈ t.predecessors.getD q ∅ ↔ (⟨o, q⟩ : Edge) ∈ t.edges := by
  -- Edges are added one by one to what the index has already.
  have hadd : ∀ (edges : List Edge) (m : OrderedMap StateId StateSet),
      o ∈ (edges.foldl (fun m e => m.insert e.target
          (OrderedSet.insert e.origin (m.getD e.target ∅))) m).getD q ∅
        ↔ ⟨o, q⟩ ∈ edges ∨ o ∈ m.getD q ∅ := by
    intro edges
    induction edges with
    | nil => simp
    | cons e edges ih =>
        intro m
        rw [List.foldl_cons, ih, mem_getD_insert_origin, List.mem_cons, or_left_comm, or_assoc]
  unfold predecessors
  rw [hadd]
  exact or_iff_left (OrderedSet.not_mem_empty o)

/-! ## §2. The edges that a search follows. -/

/-- The edges that leave an id; an id without a row has none. -/
def leaving (t : Table) (o : StateId) : List Edge :=
  rowEdges o (fun _ _ => true) (t.row o)

/-- The edges into an id, turned round, as the index of origins gives them. -/
def entering (t : Table) (q : StateId) : List Edge :=
  (t.predecessors.getD q ∅).toList.map fun o => ⟨q, o⟩

theorem indexes_leaving (t : Table) : Search.Indexes t.leaving t.edges :=
  Search.indexes_rows t fun _ => true

theorem indexes_entering (t : Table) :
    Search.Indexes t.entering (t.edges.map Edge.reverse) := by
  intro q e
  unfold entering
  rw [List.mem_map, List.mem_map]
  constructor
  · intro h
    obtain ⟨o, ho, rfl⟩ := h
    exact ⟨⟨⟨o, q⟩, mem_predecessors.1 ho, rfl⟩, rfl⟩
  · intro h
    obtain ⟨⟨d, hd, rfl⟩, rfl⟩ := h
    exact ⟨d.origin, mem_predecessors.2 hd, rfl⟩

/-! ## §3. Both directions. -/

/-- **Forward and backward agree.**  For any table, any accepting ids and any id but
zero: the id is generating iff it leads to an accepting one.

A search forward from the id that reads the rows of the table finds all it leads to, and
a search backward from the accepting ids that reads the index of origins finds all that
is generating.  Either takes no id twice, ends in whichever order it goes on, and needs
no row for the ids that it meets. -/
theorem generating_iff_reachable_meets (t : Table) (accept : List StateId) {s : StateId}
    (hs : s ≠ 0) :
    let reachable := t.reachable (namedState s)
    let generating := t.generating (OrderedSet.ofList accept)
    (s ∈ generating ↔ ∃ f ∈ accept, f ∈ reachable)
      ∧ Search.Finds t.leaving (OrderedSet.singleton s) reachable
      ∧ Search.Finds t.entering (OrderedSet.ofList accept) generating := by
  intro reachable generating
  have hnamed : namedState s = some s := if_neg hs
  have hreachable : reachable = (saturate (OrderedSet.singleton s) t.edges).seen :=
    congrArg t.reachable hnamed
  refine ⟨?_, ?_, t.indexes_entering.finds _⟩
  · rw [mem_generating]
    constructor
    · intro h
      obtain ⟨f, hf, hl⟩ := h
      exact ⟨f, OrderedSet.mem_ofList.1 hf, mem_reachable.2 ⟨s, hnamed, hl⟩⟩
    · intro h
      obtain ⟨f, hf, hl⟩ := h
      obtain ⟨r, hr, hl⟩ := mem_reachable.1 hl
      cases hr.symm.trans hnamed
      exact ⟨f, OrderedSet.mem_ofList.2 hf, hl⟩
  · rw [hreachable]
    exact t.indexes_leaving.finds _

/-- Two ids that lead to each other, and a way out to an id without a row on an edge that
matches nothing. -/
def cycleWithExit : Table :=
  .ofList [(1, .ofList [(2, .onlyEmpty)]), (2, .ofList [(1, .onlyEmpty), (9, ∅)])]

/-- The way out is found from within the cycle, and the cycle from the way out.  The
search backward starts from an id too that the table does not have, and it ends. -/
theorem generating_iff_reachable_meets_cycle :
    let start : Search := ⟨OrderedSet.ofList [9, 7], [9, 7], none⟩
    (1 : StateId) ≠ 0
      ∧ 9 ∈ cycleWithExit.reachable (namedState 1)
      ∧ 1 ∈ cycleWithExit.generating (OrderedSet.ofList [9, 7])
      ∧ start.Begins
      ∧ ∃ taken last, Search.Takes cycleWithExit.entering start taken last
          ∧ last.frontier = [] ∧ taken.length = 4
          ∧ last.seen = OrderedSet.ofList [1, 2, 7, 9] := by
  intro start
  have hbegins : start.Begins := .swap 7 9 []
  have hreach : 9 ∈ cycleWithExit.reachable (namedState 1) := by decide +kernel
  obtain ⟨hagree, _, hbackward⟩ :=
    generating_iff_reachable_meets cycleWithExit [9, 7] (s := 1) (by decide)
  obtain ⟨_, hend, _⟩ := hbackward start rfl hbegins [] start (.nil start)
  obtain ⟨taken, last, htakes, hlast⟩ := hend
  obtain ⟨_, _, hfound⟩ := hbackward start rfl hbegins taken last htakes
  obtain ⟨hseen, htaken⟩ := hfound hlast
  have hgenerating : cycleWithExit.generating (OrderedSet.ofList [9, 7])
      = OrderedSet.ofList [1, 2, 7, 9] := by decide +kernel
  refine ⟨by decide, hreach, hagree.2 ⟨9, by decide, hreach⟩, hbegins, taken, last, htakes,
    hlast, ?_, hseen.trans hgenerating⟩
  rw [htaken.length_eq, hgenerating]
  rfl

end FiniteAutomata.Table
