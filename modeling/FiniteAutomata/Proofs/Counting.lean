/-
  FiniteAutomata.Proofs.Counting
  ──────────────────────────────
  **DETERMINISM IS DECIDED BY COUNTING.**

  Whether labels of a row share a symbol need not be asked pair by pair.  Put the points
  of all labels into one list, those that match nothing left out: no label has a point
  twice, so a point that stands twice in the list is in two labels, and then the list has
  fewer points than entries.  Whether a label has the empty symbol is seen from its first
  point.

      size_ofList_joinedPoints     the points of the list are those of the union
      shareAny_eq_repeatsPoint     one count in place of a comparison for each pair

  Main statement: `Table.isDeterministic_decides`, for all tables.
-/
import FiniteAutomata.Proofs.SetAlgebra

namespace FiniteAutomata

/-! ## §1. One list of points. -/

namespace SymbolSet

variable {groups : List SymbolSet}

/-- The sets that match something. -/
def occupied (groups : List SymbolSet) : List SymbolSet := groups.filter (!·.isEmpty)

/-- The points of the sets that match something, one set after the other. -/
def joinedPoints (groups : List SymbolSet) : List Int := (occupied groups).flatMap points

/-- Whether a point stands in the list twice. -/
def repeatsPoint (groups : List SymbolSet) : Bool :=
  -- A single set has each of its points once.
  if (occupied groups).length < 2 then false
  else (OrderedSet.ofList (joinedPoints groups)).size < (joinedPoints groups).length

/-- Sets that match nothing have no points to add. -/
theorem joinedPoints_eq (groups : List SymbolSet) :
    joinedPoints groups = groups.flatMap points := by
  unfold joinedPoints occupied
  induction groups with
  | nil => rfl
  | cons g groups ih =>
      rw [List.filter_cons, List.flatMap_cons]
      by_cases hg : g.isEmpty = true
      · have hpoints : g.points = [] := by rw [isEmpty_iff.1 hg]; rfl
        rw [if_neg (by simp [hg]), ih, hpoints, List.nil_append]
      · rw [if_pos (by simp [hg]), List.flatMap_cons, ih]

theorem length_joinedPoints (groups : List SymbolSet) :
    (joinedPoints groups).length = totalSize groups := by
  rw [joinedPoints_eq]
  induction groups with
  | nil => rfl
  | cons g groups ih =>
      have hsize : g.points.length = g.size := List.length_map ..
      rw [List.flatMap_cons, List.length_append, ih, hsize, totalSize]

theorem mem_joinedPoints {p : Int} :
    p ∈ joinedPoints groups ↔ p ∈ (unionAll groups).points := by
  rw [joinedPoints_eq, List.mem_flatMap]
  constructor
  · intro h
    obtain ⟨g, hg, hp⟩ := h
    obtain ⟨x, hx, rfl⟩ := List.mem_map.1 hp
    exact point_mem_points.2 (mem_unionAll.2 ⟨g, hg, hx⟩)
  · intro h
    obtain ⟨x, hx, rfl⟩ := List.mem_map.1 h
    obtain ⟨g, hg, hxg⟩ := mem_unionAll.1 hx
    exact ⟨g, hg, point_mem_points.2 hxg⟩

/-- **The points of the list are those of the union**, each counted once. -/
theorem size_ofList_joinedPoints (groups : List SymbolSet) :
    (OrderedSet.ofList (joinedPoints groups)).size = (unionAll groups).size := by
  have hpoints : (OrderedSet.ofList (joinedPoints groups)).toList = (unionAll groups).points :=
    OrderedSet.eq_of_ascending (OrderedSet.ascending _) (points_ascending _) fun _ =>
      OrderedSet.mem_ofList.trans mem_joinedPoints
  calc (OrderedSet.ofList (joinedPoints groups)).size
      = (unionAll groups).points.length := congrArg List.length hpoints
    _ = (unionAll groups).size := List.length_map ..

/-- Where fewer than two sets match something, no two sets share a symbol. -/
theorem shareAny_eq_false_of_few (h : (occupied groups).length < 2) :
    shareAny groups = false := by
  have hfew : (occupied groups).Pairwise Apart := by
    cases hoccupied : occupied groups with
    | nil => exact .nil
    | cons g rest =>
        rw [hoccupied, List.length_cons] at h
        have hrest : rest = [] := List.length_eq_zero_iff.1 (by omega)
        rw [hrest]
        exact List.pairwise_singleton Apart g
  rw [shareAny_eq_false_iff]
  refine (List.pairwise_filter.1 hfew).imp ?_
  intro g g' happart x hx hx'
  have hg : g.isEmpty = false := by
    rw [← Bool.not_eq_true, isEmpty_iff]
    exact ne_nothing_of_mem hx
  have hg' : g'.isEmpty = false := by
    rw [← Bool.not_eq_true, isEmpty_iff]
    exact ne_nothing_of_mem hx'
  exact happart (by simp [hg]) (by simp [hg']) x hx hx'

/-- **One count in place of a comparison for each pair.** -/
theorem shareAny_eq_repeatsPoint (groups : List SymbolSet) :
    shareAny groups = repeatsPoint groups := by
  unfold repeatsPoint
  by_cases hfew : (occupied groups).length < 2
  · rw [if_pos hfew, shareAny_eq_false_of_few hfew]
  · rw [if_neg hfew, size_ofList_joinedPoints, length_joinedPoints, shareAny]

end SymbolSet

/-! ## §2. Determinism. -/

namespace Table

/-- The test of a row on the points of its labels: none begins with the empty symbol, and
no point stands twice. -/
def passesByPoints (r : Row) : Bool :=
  if r.values.any (·.points.head? = some (-1)) then false
  else !SymbolSet.repeatsPoint r.values

theorem isDeterministicRow_eq_passesByPoints (r : Row) :
    isDeterministicRow r = passesByPoints r := by
  have hempty : SymbolSet.hasEmpty = fun g : SymbolSet => decide (g.points.head? = some (-1)) := by
    funext g
    rw [Bool.eq_iff_iff, decide_eq_true_eq]
    exact SymbolSet.has_iff.trans SymbolSet.empty_mem_iff_head?
  unfold isDeterministicRow passesByPoints
  rw [hempty, SymbolSet.shareAny_eq_repeatsPoint]
  cases r.values.any _ <;> rfl

/-- **Determinism is decided.**  A table is deterministic iff no label has the empty
symbol and no symbol is in the labels of two edges from one origin to different targets.
The test on points, which counts once for each row, gives the same answer. -/
theorem isDeterministic_decides (t : Table) :
    (t.isDeterministic = true
        ↔ (∀ o q g, t.label? o q = some g → Symbol.empty ∉ g)
          ∧ ∀ o p q g g', p ≠ q → t.label? o p = some g → t.label? o q = some g' →
              ∀ x, ¬ (x ∈ g ∧ x ∈ g'))
      ∧ t.isDeterministic = t.values.all passesByPoints := by
  constructor
  · rw [isDeterministic_iff]
    simp only [SymbolSet.Apart, not_and]
  · unfold isDeterministic
    rw [funext isDeterministicRow_eq_passesByPoints]

end Table

end FiniteAutomata
