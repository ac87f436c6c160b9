/-
  FiniteAutomata.Graph.Table
  ──────────────────────────
  Transition tables.

  A table gives each origin a row, and each row gives each target the symbols
  on the edge to it.  Origins and targets are ids; a table need not know of any
  states beyond them, and an edge may match nothing.
-/
import FiniteAutomata.OrderedMap
import FiniteAutomata.SymbolSet.Basic

namespace FiniteAutomata

/-- The id of a state.  States have positive ids. -/
abbrev StateId := Int

/-- A finite set of ids. -/
abbrev StateSet := OrderedSet StateId

/-- The state that an id names; zero names none. -/
def namedState (id : StateId) : Option StateId :=
  if id = 0 then none else some id

/-! ## §1. Edges. -/

/-- An edge, without its symbols. -/
structure Edge where
  origin : StateId
  target : StateId
  deriving DecidableEq, Repr

namespace Edge

/-- The edge the other way round. -/
def reverse (e : Edge) : Edge := ⟨e.target, e.origin⟩

instance : LT Edge :=
  ⟨fun d e => d.origin < e.origin ∨ d.origin = e.origin ∧ d.target < e.target⟩

/-- Edges are ordered by origin, then by target. -/
theorem lt_iff {d e : Edge} :
    d < e ↔ d.origin < e.origin ∨ d.origin = e.origin ∧ d.target < e.target := Iff.rfl

instance : KeyOrder Edge where
  decideLt d e := inferInstanceAs
    (Decidable (d.origin < e.origin ∨ d.origin = e.origin ∧ d.target < e.target))
  irrefl e := by
    rw [lt_iff]
    unfold StateId at *
    omega
  trans := by
    intro a b c
    rw [lt_iff, lt_iff, lt_iff]
    unfold StateId at *
    omega
  trichotomy d e := by
    obtain ⟨o, p⟩ := d
    obtain ⟨o', p'⟩ := e
    rw [lt_iff, lt_iff, Edge.mk.injEq]
    dsimp only
    unfold StateId at *
    omega

end Edge

/-! ## §2. Tables. -/

/-- The edges of one origin: the symbols on the edge to each target. -/
abbrev Row := OrderedMap StateId SymbolSet

/-- The rows of all origins. -/
abbrev Table := OrderedMap StateId Row

namespace Table

/-- The edges of an origin; an id without a row has none. -/
def row (t : Table) (origin : StateId) : Row := t.getD origin ∅

/-- The symbols on an edge, if there is one. -/
def label? (t : Table) (origin target : StateId) : Option SymbolSet :=
  (t.row origin).get? target

theorem row_insert (t : Table) (o o' : StateId) (r : Row) :
    row (t.insert o r) o' = if o' = o then r else t.row o' := by
  unfold row OrderedMap.getD
  rw [OrderedMap.get?_insert]
  by_cases h : o' = o <;> simp [h]

theorem label?_insert (t : Table) (o o' target : StateId) (r : Row) :
    label? (t.insert o r) o' target = if o' = o then r.get? target else t.label? o' target := by
  unfold label?
  rw [row_insert]
  by_cases h : o' = o <;> simp [h]

theorem row_erase (t : Table) (o o' : StateId) :
    row (t.erase o) o' = if o' = o then ∅ else t.row o' := by
  unfold row OrderedMap.getD
  rw [OrderedMap.get?_erase]
  by_cases h : o' = o <;> simp [h]

/-- The edges of a row that satisfy a test on target and symbols. -/
def rowEdges (origin : StateId) (p : StateId → SymbolSet → Bool) (r : Row) :
    List Edge :=
  r.entries.filterMap fun (target, symbols) =>
    if p target symbols then some ⟨origin, target⟩ else none

/-- The edges whose symbols satisfy a test. -/
def edgesWhere (t : Table) (p : SymbolSet → Bool) : List Edge :=
  t.entries.flatMap fun (origin, r) => rowEdges origin (fun _ symbols => p symbols) r

/-- All edges. -/
def edges (t : Table) : List Edge := t.edgesWhere fun _ => true

/-- The edges that consume no input. -/
def emptyEdges (t : Table) : List Edge := t.edgesWhere SymbolSet.hasEmpty

/-- The symbol sets on all edges. -/
def labels (t : Table) : List SymbolSet := t.values.flatMap (·.values)

theorem mem_rowEdges {origin : StateId} {p : StateId → SymbolSet → Bool} {r : Row}
    {e : Edge} : e ∈ rowEdges origin p r ↔
      e.origin = origin ∧ ∃ s, r.get? e.target = some s ∧ p e.target s = true := by
  simp only [rowEdges, List.mem_filterMap, OrderedMap.get?_eq_some_iff]
  constructor
  · rintro ⟨⟨target, symbols⟩, hmem, h⟩
    split at h
    · next hp =>
      cases h
      exact ⟨rfl, symbols, hmem, hp⟩
    · cases h
  · rintro ⟨rfl, s, hmem, hp⟩
    exact ⟨(e.target, s), hmem, by rw [if_pos hp]⟩

/-- An edge satisfies a test if there is one and its symbols do. -/
theorem mem_edgesWhere {t : Table} {p : SymbolSet → Bool} {e : Edge} :
    e ∈ t.edgesWhere p ↔ ∃ s, t.label? e.origin e.target = some s ∧ p s = true := by
  simp only [edgesWhere, List.mem_flatMap, mem_rowEdges, label?, row]
  constructor
  · rintro ⟨⟨origin, r⟩, hmem, rfl, s, hs, hp⟩
    refine ⟨s, ?_, hp⟩
    rw [OrderedMap.getD, OrderedMap.get?_eq_some_iff.2 hmem]
    exact hs
  · rintro ⟨s, hs, hp⟩
    cases hr : t.get? e.origin with
    | none =>
        rw [OrderedMap.getD, hr] at hs
        simp at hs
    | some r =>
        rw [OrderedMap.getD, hr] at hs
        exact ⟨(e.origin, r), OrderedMap.get?_eq_some_iff.1 hr, rfl, s, hs, hp⟩

theorem mem_edges {t : Table} {e : Edge} :
    e ∈ t.edges ↔ ∃ s, t.label? e.origin e.target = some s := by
  rw [edges, mem_edgesWhere]
  simp

theorem mem_emptyEdges {t : Table} {e : Edge} :
    e ∈ t.emptyEdges ↔
      ∃ s, t.label? e.origin e.target = some s ∧ Symbol.empty ∈ s := by
  rw [emptyEdges, mem_edgesWhere]
  simp only [SymbolSet.hasEmpty, SymbolSet.has_iff]

end Table

end FiniteAutomata
