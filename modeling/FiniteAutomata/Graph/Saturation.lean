/-
  FiniteAutomata.Graph.Saturation
  ───────────────────────────────
  **What a set of ids leads to along given edges.**

  `saturate` follows edges in rounds: the edges whose origin has been seen are
  used up and their targets join the seen ids, until no edge is left to follow.
  Main statements:

      mem_saturate       an id is seen iff some seed is linked to it
      mem_followed       the edges followed are those that leave a seen id
-/
import FiniteAutomata.Graph.Table

namespace FiniteAutomata

/-! ## §1. The rounds. -/

/-- The ids that have been seen and the edges that have been followed. -/
structure Saturation where
  seen : StateSet
  followed : List Edge

/-- The edges that leave a seen id. -/
def liveEdges (seen : StateSet) (edges : List Edge) : List Edge :=
  edges.filter (·.origin ∈ seen)

/-- The edges that leave no seen id. -/
def idleEdges (seen : StateSet) (edges : List Edge) : List Edge :=
  edges.filter (·.origin ∉ seen)

/-- The targets of some edges. -/
def targetsOf (edges : List Edge) : StateSet :=
  OrderedSet.ofList (edges.map (·.target))

theorem mem_liveEdges {seen : StateSet} {edges : List Edge} {e : Edge} :
    e ∈ liveEdges seen edges ↔ e ∈ edges ∧ e.origin ∈ seen := by
  simp [liveEdges]

theorem mem_idleEdges {seen : StateSet} {edges : List Edge} {e : Edge} :
    e ∈ idleEdges seen edges ↔ e ∈ edges ∧ e.origin ∉ seen := by
  simp [idleEdges]

theorem mem_targetsOf {edges : List Edge} {x : StateId} :
    x ∈ targetsOf edges ↔ ∃ e ∈ edges, e.target = x := by
  simp [targetsOf]

theorem length_idleEdges_lt {seen : StateSet} {edges : List Edge}
    (h : liveEdges seen edges ≠ []) :
    (idleEdges seen edges).length < edges.length := by
  obtain ⟨e, he⟩ := List.exists_mem_of_ne_nil _ h
  obtain ⟨he, hs⟩ := mem_liveEdges.1 he
  exact List.length_filter_lt_length_iff_exists.2 ⟨e, he, by simpa using hs⟩

/-- The same ids, with edges followed beforehand. -/
def Saturation.after (edges : List Edge) (s : Saturation) : Saturation :=
  ⟨s.seen, edges ++ s.followed⟩

/-- Follow edges from the seen ids as far as they go. -/
def saturate (seen : StateSet) (edges : List Edge) : Saturation :=
  -- Every live edge is used up, so the list of edges gets shorter.
  if liveEdges seen edges = [] then ⟨seen, []⟩
  else
    (saturate (seen ∪ targetsOf (liveEdges seen edges)) (idleEdges seen edges)).after
      (liveEdges seen edges)
termination_by edges.length
decreasing_by exact length_idleEdges_lt ‹_›

/-! ## §2. Links. -/

/-- `Linked edges a b`: edges of the list lead from `a` to `b`. -/
inductive Linked (edges : List Edge) : StateId → StateId → Prop where
  | refl (a : StateId) : Linked edges a a
  | tail {a b : StateId} (e : Edge) : Linked edges a e.origin → e ∈ edges →
      e.target = b → Linked edges a b

namespace Linked

/-- An edge links its ends. -/
theorem of_mem {edges : List Edge} {e : Edge} (h : e ∈ edges) :
    Linked edges e.origin e.target :=
  .tail e (.refl _) h rfl

theorem trans {edges : List Edge} {a b c : StateId} (h : Linked edges a b)
    (h' : Linked edges b c) : Linked edges a c := by
  induction h' with
  | refl => exact h
  | tail e _ he heq ih => exact .tail e ih he heq

theorem mono {edges edges' : List Edge} (h : ∀ e ∈ edges, e ∈ edges')
    {a b : StateId} (hab : Linked edges a b) : Linked edges' a b := by
  induction hab with
  | refl => exact .refl _
  | tail e _ he heq ih => exact .tail e ih (h e he) heq

/-- The reversed edges link the reversed way. -/
theorem reverse {edges : List Edge} {a b : StateId} (h : Linked edges a b) :
    Linked (edges.map Edge.reverse) b a := by
  induction h with
  | refl => exact .refl _
  | tail e _ he heq ih =>
      subst heq
      have hback : e.reverse ∈ edges.map Edge.reverse := List.mem_map.2 ⟨e, he, rfl⟩
      exact trans (of_mem hback) ih

theorem reverse_iff {edges : List Edge} {a b : StateId} :
    Linked (edges.map Edge.reverse) a b ↔ Linked edges b a := by
  constructor
  · intro h
    -- Turned round twice, an edge is the edge that it was.
    have hback := h.reverse
    rw [List.map_map] at hback
    simpa [Function.comp_def, Edge.reverse] using hback
  · exact reverse

end Linked

/-! ## §3. What is seen. -/

theorem subset_saturate {seen : StateSet} {edges : List Edge} {x : StateId}
    (h : x ∈ seen) : x ∈ (saturate seen edges).seen := by
  fun_induction saturate seen edges with
  | case1 => exact h
  | case2 seen edges _ ih => exact ih (OrderedSet.mem_union.2 (Or.inl h))

/-- No edge leads out of the seen ids. -/
theorem saturate_closed {seen : StateSet} {edges : List Edge} {e : Edge}
    (he : e ∈ edges) (h : e.origin ∈ (saturate seen edges).seen) :
    e.target ∈ (saturate seen edges).seen := by
  fun_induction saturate seen edges with
  | case1 seen edges hlive =>
      have : e ∈ liveEdges seen edges := mem_liveEdges.2 ⟨he, h⟩
      simp [hlive] at this
  | case2 seen edges hlive ih =>
      by_cases hs : e.origin ∈ seen
      · exact subset_saturate (OrderedSet.mem_union.2
          (Or.inr (mem_targetsOf.2 ⟨e, mem_liveEdges.2 ⟨he, hs⟩, rfl⟩)))
      · exact ih (mem_idleEdges.2 ⟨he, hs⟩) h

theorem linked_of_mem_saturate {seen : StateSet} {edges : List Edge} {x : StateId}
    (h : x ∈ (saturate seen edges).seen) : ∃ s ∈ seen, Linked edges s x := by
  fun_induction saturate seen edges with
  | case1 => exact ⟨x, h, .refl x⟩
  | case2 seen edges hlive ih =>
      obtain ⟨s, hs, hl⟩ := ih h
      have hl : Linked edges s x := hl.mono fun e he => (mem_idleEdges.1 he).1
      rcases OrderedSet.mem_union.1 hs with hs | hs
      · exact ⟨s, hs, hl⟩
      · obtain ⟨e, he, rfl⟩ := mem_targetsOf.1 hs
        obtain ⟨he, ho⟩ := mem_liveEdges.1 he
        exact ⟨e.origin, ho, .trans (.of_mem he) hl⟩

/-- An id is seen in the end iff some seed is linked to it. -/
theorem mem_saturate {seen : StateSet} {edges : List Edge} {x : StateId} :
    x ∈ (saturate seen edges).seen ↔ ∃ s ∈ seen, Linked edges s x := by
  constructor
  · exact linked_of_mem_saturate
  · rintro ⟨s, hs, hl⟩
    induction hl with
    | refl => exact subset_saturate hs
    | tail e _ he heq ih =>
        subst heq
        exact saturate_closed he ih

/-- The edges followed are those that leave a seen id. -/
theorem mem_followed {seen : StateSet} {edges : List Edge} {e : Edge} :
    e ∈ (saturate seen edges).followed ↔
      e ∈ edges ∧ e.origin ∈ (saturate seen edges).seen := by
  fun_induction saturate seen edges with
  | case1 seen edges hlive =>
      refine iff_of_false List.not_mem_nil fun h => ?_
      have : e ∈ liveEdges seen edges := mem_liveEdges.2 h
      simp [hlive] at this
  | case2 seen edges hlive ih =>
      simp only [Saturation.after, List.mem_append, ih, mem_liveEdges, mem_idleEdges]
      have hseen : e.origin ∈ seen → e.origin ∈ (saturate
          (seen ∪ targetsOf (liveEdges seen edges)) (idleEdges seen edges)).seen :=
        fun hs => subset_saturate (OrderedSet.mem_union.2 (Or.inl hs))
      by_cases hs : e.origin ∈ seen
      · simp [hs, hseen hs]
      · simp [hs]

end FiniteAutomata
