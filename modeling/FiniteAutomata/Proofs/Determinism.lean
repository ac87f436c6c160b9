/-
  FiniteAutomata.Proofs.Determinism
  ─────────────────────────────────
  **WHAT DETERMINISM MEANS EDGE BY EDGE.**

  Whether two labels of a row have a symbol in common is decided by counting:
  their union has as many members as they have together iff no two share one.

      size_merge_eq_iff       the counting argument
      isDeterministic_iff     no label with the empty symbol, and no symbol on
                              two edges of one origin
-/
import FiniteAutomata.Graph.Analyses
import Mathlib.Data.List.Nodup
import Mathlib.Data.List.Pairwise

namespace FiniteAutomata

/-! ## §1. Counting members. -/

namespace SymbolSet

/-- The sets have no member in common. -/
def Apart (s t : SymbolSet) : Prop := ∀ x ∈ s, x ∉ t

theorem Apart.symm {s t : SymbolSet} (h : s.Apart t) : t.Apart s :=
  fun x ht hs => h x hs ht

theorem nodup_symbols (s : SymbolSet) : s.symbols.toList.Nodup := s.symbols.nodup

/-- The members of a union, each once, are among those of both sets. -/
theorem union_subset_append (s t : SymbolSet) :
    (s ∪ t).symbols.toList ⊆ s.symbols.toList ++ t.symbols.toList := by
  intro x hx
  have hx' : x ∈ s ∪ t := hx
  exact List.mem_append.2 (mem_union.1 hx')

theorem size_union_le (s t : SymbolSet) : (s ∪ t).size ≤ s.size + t.size := by
  have hle := (nodup_symbols (s ∪ t)).length_le_of_subset (union_subset_append s t)
  rwa [List.length_append] at hle

theorem size_union_eq_iff {s t : SymbolSet} :
    (s ∪ t).size = s.size + t.size ↔ s.Apart t := by
  constructor
  · intro heq x hs ht
    -- The shared member is counted twice on the right.
    have hsub : (s ∪ t).symbols.toList ⊆ s.symbols.toList ++ t.symbols.toList.erase x := by
      intro y hy
      obtain hy | hy := List.mem_append.1 (union_subset_append s t hy)
      · exact List.mem_append_left _ hy
      · by_cases hyx : y = x
        · exact List.mem_append_left _ (hyx ▸ hs)
        · exact List.mem_append_right _ ((List.mem_erase_of_ne hyx).2 hy)
    have hle := (nodup_symbols (s ∪ t)).length_le_of_subset hsub
    have hmem : x ∈ t.symbols.toList := ht
    have hpos : 0 < t.symbols.toList.length := List.length_pos_of_mem hmem
    rw [List.length_append, List.length_erase_of_mem hmem] at hle
    have heq' : (s ∪ t).symbols.toList.length
        = s.symbols.toList.length + t.symbols.toList.length := heq
    omega
  · intro hapart
    -- One after the other they are the union, in some order.
    have hnodup : (s.symbols.toList ++ t.symbols.toList).Nodup := by
      rw [List.nodup_append]
      refine ⟨nodup_symbols s, nodup_symbols t, ?_⟩
      intro x hx y hy hxy
      exact hapart x hx (hxy ▸ hy)
    have hperm : (s ∪ t).symbols.toList.Perm (s.symbols.toList ++ t.symbols.toList) := by
      rw [List.perm_ext_iff_of_nodup (nodup_symbols _) hnodup]
      intro x
      rw [List.mem_append]
      exact mem_union
    have hlen := hperm.length_eq
    rwa [List.length_append] at hlen

theorem size_merge_le (s : SymbolSet) (groups : List SymbolSet) :
    (s.merge groups).size ≤ s.size + totalSize groups := by
  induction groups generalizing s with
  | nil => exact Nat.le_refl _
  | cons g groups ih =>
      have hrest := ih (s ∪ g)
      have hunion := size_union_le s g
      show ((s ∪ g).merge groups).size ≤ s.size + (g.size + totalSize groups)
      omega

/-- A union has as many members as its parts have together iff no two parts share
one. -/
theorem size_merge_eq_iff {s : SymbolSet} {groups : List SymbolSet} :
    (s.merge groups).size = s.size + totalSize groups
      ↔ (∀ g ∈ groups, s.Apart g) ∧ groups.Pairwise Apart := by
  induction groups generalizing s with
  | nil => simp [merge, totalSize]
  | cons g groups ih =>
      have hrest := size_merge_le (s ∪ g) groups
      have hunion := size_union_le s g
      -- Neither inequality can be made up for by the other.
      have hsplit : (s.merge (g :: groups)).size = s.size + totalSize (g :: groups)
          ↔ (s ∪ g).size = s.size + g.size
            ∧ ((s ∪ g).merge groups).size = (s ∪ g).size + totalSize groups := by
        show ((s ∪ g).merge groups).size = s.size + (g.size + totalSize groups) ↔ _
        omega
      rw [hsplit, size_union_eq_iff, ih, List.pairwise_cons]
      constructor
      · intro h
        obtain ⟨hsg, hall, hpair⟩ := h
        refine ⟨?_, ?_, hpair⟩
        · intro t ht
          obtain rfl | ht := List.mem_cons.1 ht
          · exact hsg
          · exact fun x hx => hall t ht x (mem_union.2 (Or.inl hx))
        · exact fun t ht x hx => hall t ht x (mem_union.2 (Or.inr hx))
      · intro h
        obtain ⟨hs, hg, hpair⟩ := h
        refine ⟨hs g (by simp), ?_, hpair⟩
        intro t ht x hx
        obtain hx | hx := mem_union.1 hx
        · exact hs t (List.mem_cons_of_mem g ht) x hx
        · exact hg t ht x hx

theorem shareAny_eq_false_iff {groups : List SymbolSet} :
    shareAny groups = false ↔ groups.Pairwise Apart := by
  have hle := size_merge_le ∅ groups
  have hiff : (merge ∅ groups).size = (∅ : SymbolSet).size + totalSize groups ↔ _ :=
    size_merge_eq_iff
  have hzero : (∅ : SymbolSet).size = 0 := rfl
  have hnone : ∀ g ∈ groups, (∅ : SymbolSet).Apart g :=
    fun g _ x hx => absurd hx (not_mem_nothing x)
  unfold shareAny unionAll
  rw [decide_eq_false_iff_not]
  constructor
  · intro h
    exact (hiff.1 (by omega)).2
  · intro h
    have heq := hiff.2 ⟨hnone, h⟩
    omega

end SymbolSet

/-! ## §2. Rows and tables. -/

namespace Table

/-- A relation between the values of a map is one between values of two keys. -/
theorem pairwise_values_iff {r : Row} :
    r.values.Pairwise SymbolSet.Apart
      ↔ ∀ p q g g', p ≠ q → r.get? p = some g → r.get? q = some g' → g.Apart g' := by
  have hsymm : Std.Symm (fun d e : StateId × SymbolSet => d.2.Apart e.2) :=
    ⟨fun _ _ h => h.symm⟩
  have hkeys : r.entries.Nodup := by
    apply r.ascending.imp
    intro d e hlt heq
    exact KeyOrder.ne_of_lt hlt (congrArg Prod.fst heq)
  unfold OrderedMap.values
  rw [List.pairwise_map]
  constructor
  · intro h p q g g' hpq hp hq
    rw [OrderedMap.get?_eq_some_iff] at hp hq
    exact List.Pairwise.forall h hp hq fun e => hpq (congrArg Prod.fst e)
  · intro h
    apply hkeys.pairwise_of_forall_ne
    intro d hd e he hde
    have hd' := OrderedMap.get?_eq_some_iff.2 hd
    have he' := OrderedMap.get?_eq_some_iff.2 he
    apply h d.1 e.1 d.2 e.2 _ hd' he'
    intro hkey
    apply hde
    rw [hkey, he'] at hd'
    injection hd' with hd'
    exact Prod.ext hkey hd'.symm

theorem isDeterministicRow_iff {r : Row} :
    isDeterministicRow r = true
      ↔ (∀ q g, r.get? q = some g → Symbol.empty ∉ g)
        ∧ ∀ p q g g', p ≠ q → r.get? p = some g → r.get? q = some g' → g.Apart g' := by
  unfold isDeterministicRow
  rw [Bool.and_eq_true, Bool.not_eq_true', Bool.not_eq_true', List.any_eq_false,
    SymbolSet.shareAny_eq_false_iff, pairwise_values_iff]
  refine and_congr_left fun _ => ?_
  simp only [OrderedMap.mem_values, SymbolSet.hasEmpty, SymbolSet.has_iff]
  constructor
  · intro h q g hg
    exact h g ⟨q, hg⟩
  · intro h g hg
    obtain ⟨q, hq⟩ := hg
    exact h q g hq

/-- A table is deterministic iff no edge reads nothing and no symbol is on two
edges of one origin. -/
theorem isDeterministic_iff {t : Table} :
    t.isDeterministic = true
      ↔ (∀ o q g, t.label? o q = some g → Symbol.empty ∉ g)
        ∧ ∀ o p q g g', p ≠ q → t.label? o p = some g → t.label? o q = some g' →
            g.Apart g' := by
  unfold isDeterministic
  rw [List.all_eq_true]
  -- The rows of the table are its values, and any other row has no entries.
  have hrows : (∀ r ∈ t.values, isDeterministicRow r = true)
      ↔ ∀ o, isDeterministicRow (t.row o) = true := by
    constructor
    · intro h o
      unfold row OrderedMap.getD
      cases ho : t.get? o with
      | none => rfl
      | some r => exact h r (OrderedMap.mem_values.2 ⟨o, ho⟩)
    · intro h r hr
      obtain ⟨o, ho⟩ := OrderedMap.mem_values.1 hr
      have hrow := h o
      unfold row OrderedMap.getD at hrow
      rw [ho] at hrow
      exact hrow
  rw [hrows]
  simp only [isDeterministicRow_iff]
  constructor
  · intro h
    exact ⟨fun o => (h o).1, fun o => (h o).2⟩
  · intro h o
    exact ⟨h.1 o, h.2 o⟩

end Table

end FiniteAutomata
