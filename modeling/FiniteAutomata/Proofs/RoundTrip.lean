/-
  FiniteAutomata.Proofs.RoundTrip
  ───────────────────────────────
  **AN AUTOMATON THAT IS WRITTEN AND READ IS THE SAME BUT FOR ITS IDS.**

  Writing puts the states in an order, the start first and the others by id, and
  speaks of them by index; reading gives the state at an index the id one greater.
  So a state gets the id `renumbered` says, and everything else is carried over:

      Renames φ a f          `f` has the states of `a` under other ids
      Renames.accepts_eq     then it accepts the same words, if it has no more
      readable_toDefinition  what is written can be read
      ofDefinition_toDefinition
                             and is read as the automaton under other ids

  An automaton with states but no start comes back with one state more, a start
  that nothing leads to or from.
-/
import FiniteAutomata.Proofs.Acceptance
import FiniteAutomata.Proofs.Extensionality
import FiniteAutomata.Proofs.Reading
import FiniteAutomata.Proofs.SymbolText
import Mathlib.Data.List.Nodup

namespace FiniteAutomata

namespace Automaton

variable {a f : Automaton}

/-! ## §1. The same automaton under other ids. -/

/-- The states of `a` are states of `f` under other ids, with their names, whether
they accept, and the labels of the edges between them. -/
structure Renames (φ : StateId → StateId) (a f : Automaton) : Prop where
  injective : ∀ s ∈ a.states, ∀ t ∈ a.states, φ s = φ t → s = t
  mem_states : ∀ s ∈ a.states, φ s ∈ f.states
  names : ∀ s ∈ a.states, f.names.get? (φ s) = a.names.get? s
  accept : ∀ s ∈ a.states, φ s ∈ f.accept ↔ s ∈ a.accept
  label : ∀ s ∈ a.states, ∀ t ∈ a.states,
    f.table.label? (φ s) (φ t) = a.table.label? s t

namespace Renames

variable {φ : StateId → StateId}

/-- A path goes along under other ids. -/
theorem path (h : Renames φ a f) (ha : a.WellFormed) {s t : StateId} {w : List Char}
    (hs : s ∈ a.states) (hp : Path a.table s w t) : Path f.table (φ s) w (φ t) := by
  induction hp with
  | nil s => exact .nil (φ s)
  | silent hl he _ ih =>
      have hm := ha.target_mem _ _ _ hl
      exact .silent ((h.label _ hs _ hm).trans hl) he (ih hm)
  | read hl hc _ ih =>
      have hm := ha.target_mem _ _ _ hl
      exact .read ((h.label _ hs _ hm).trans hl) hc (ih hm)

/-- Where there are no further states, a path under other ids is one that goes
along. -/
theorem exists_path (h : Renames φ a f) (hf : f.WellFormed)
    (honto : ∀ q ∈ f.states, ∃ t ∈ a.states, φ t = q) {s : StateId} {p q : StateId}
    {w : List Char} (hs : s ∈ a.states) (hp : Path f.table p w q) (hps : φ s = p) :
    ∃ t ∈ a.states, φ t = q ∧ Path a.table s w t := by
  -- The state behind each edge is one that goes along, so the rest can be taken back.
  induction hp generalizing s with
  | nil => exact ⟨s, hs, hps, .nil s⟩
  | silent hl he _ ih =>
      obtain ⟨m, hm, rfl⟩ := honto _ (hf.target_mem _ _ _ hl)
      obtain ⟨t, ht, hq, hpath⟩ := ih hm rfl
      rw [← hps, h.label s hs m hm] at hl
      exact ⟨t, ht, hq, .silent hl he hpath⟩
  | read hl hc _ ih =>
      obtain ⟨m, hm, rfl⟩ := honto _ (hf.target_mem _ _ _ hl)
      obtain ⟨t, ht, hq, hpath⟩ := ih hm rfl
      rw [← hps, h.label s hs m hm] at hl
      exact ⟨t, ht, hq, .read hl hc hpath⟩

/-- **The same automaton under other ids accepts the same words.** -/
theorem accepts_eq (h : Renames φ a f) (ha : a.WellFormed) (hf : f.WellFormed)
    (honto : ∀ q ∈ f.states, ∃ t ∈ a.states, φ t = q) (hstart : f.start = a.start.map φ)
    (w : List Char) : f.accepts w = a.accepts w := by
  rw [Bool.eq_iff_iff, accepts_iff, accepts_iff, hstart]
  constructor
  · intro hacc
    obtain ⟨p, hp, q, hq, hpath⟩ := hacc
    obtain ⟨s, hs, rfl⟩ := Option.map_eq_some_iff.1 hp
    obtain ⟨t, ht, rfl, hback⟩ := h.exists_path hf honto (ha.start_mem s hs) hpath rfl
    exact ⟨s, hs, t, (h.accept t ht).1 hq, hback⟩
  · intro hacc
    obtain ⟨s, hs, t, ht, hpath⟩ := hacc
    have htstate := ha.accept_subset t ht
    exact ⟨φ s, Option.map_eq_some_iff.2 ⟨s, hs, rfl⟩, φ t, (h.accept t htstate).2 ht,
      h.path ha (ha.start_mem s hs) hpath⟩

end Renames

/-- An automaton whose start neither accepts nor has edges accepts nothing. -/
theorem accepts_eq_false {s : StateId} (hstart : a.start = some s) (haccept : s ∉ a.accept)
    (hedges : ∀ q, a.table.label? s q = none) (w : List Char) : a.accepts w = false := by
  rw [← Bool.not_eq_true, accepts_iff]
  intro h
  obtain ⟨p, hp, q, hq, hpath⟩ := h
  rw [hstart] at hp
  injection hp with hp
  subst hp
  cases hpath with
  | nil => exact haccept hq
  | silent hl => simp [hedges] at hl
  | read hl => simp [hedges] at hl

theorem accepts_eq_false_of_no_start (hstart : a.start = none) (w : List Char) :
    a.accepts w = false := by
  rw [← Bool.not_eq_true, accepts_iff]
  intro h
  obtain ⟨p, hp, _⟩ := h
  rw [hstart] at hp
  cases hp

/-! ## §2. The order of the states. -/

/-- The states other than the start. -/
def others (a : Automaton) : StateSet := a.states.filter fun s => a.start ≠ some s

/-- The id that a state has after its automaton was written and read: the start, or
the state in its place, is first, and the others follow by id. -/
def renumbered (a : Automaton) (s : StateId) : StateId :=
  if a.start = some s then 1 else 2 + (a.others.filter fun t => t < s).size

theorem mem_others {s : StateId} : s ∈ a.others ↔ s ∈ a.states ∧ a.start ≠ some s := by
  unfold others
  rw [OrderedSet.mem_filter, decide_eq_true_iff]

theorem others_eq_states (hstart : a.start = none) : a.others = a.states := by
  ext s
  rw [mem_others, hstart]
  simp

/-- The states by index: the start or what stands in for it, and the others. -/
theorem indexOrder_eq (hsome : a.states ≠ ∅) :
    a.indexOrder = a.start :: a.others.toList.map some := by
  unfold indexOrder
  cases hstart : a.start with
  | some s =>
      have hothers : a.states.erase s = a.others := by
        ext t
        rw [OrderedSet.mem_erase, mem_others, hstart]
        simp [eq_comm]
      dsimp only
      rw [hothers]
  | none =>
      rw [others_eq_states hstart]
      cases hl : a.states.toList with
      | nil => exact absurd (OrderedSet.eq_of_toList_eq hl) hsome
      | cons s rest => rfl

theorem indexOrder_eq_nil (h : a.WellFormed) (hnone : a.states = ∅) : a.indexOrder = [] := by
  have hstart : a.start = none := by
    cases hs : a.start with
    | none => rfl
    | some s => exact absurd hnone (OrderedSet.ne_empty_of_mem (h.start_mem s hs))
  unfold indexOrder
  rw [hstart, hnone]
  rfl

/-- In an ascending list, before an element are the lesser ones. -/
theorem idxOf_of_ascending {l : List StateId} (hl : l.Pairwise (· < ·)) {s : StateId}
    (hs : s ∈ l) : l.idxOf s = (l.filter fun t => t < s).length := by
  induction l with
  | nil => cases hs
  | cons t l ih =>
      rw [List.pairwise_cons] at hl
      by_cases hts : t = s
      · subst hts
        -- The least element comes first.
        have hnone : l.filter (fun u => decide (u < t)) = [] := by
          rw [List.filter_eq_nil_iff]
          intro u hu
          simpa using Int.le_of_lt (hl.1 u hu)
        simp [hnone]
      · have hmem : s ∈ l := (List.mem_cons.1 hs).resolve_left fun e => hts e.symm
        rw [List.idxOf_cons_ne l hts, ih hl.2 hmem, List.filter_cons_of_pos]
        · rfl
        · exact decide_eq_true (hl.1 s hmem)

theorem idxOf_map_some (l : List StateId) (s : StateId) :
    (l.map some).idxOf (some s) = l.idxOf s := by
  induction l with
  | nil => rfl
  | cons t l ih => simp [List.idxOf_cons, ih]

theorem indexOf_start {s : StateId} (hs : a.start = some s) : a.indexOf s = 0 := by
  unfold indexOf indexOrder
  rw [hs]
  exact List.idxOf_cons_self

/-- Before a state other than the start stand the start, or what stands in for it, and
the others with lesser ids. -/
theorem indexOf_of_not_start {s : StateId} (hs : s ∈ a.states) (hstart : a.start ≠ some s) :
    a.indexOf s = (a.others.filter fun t => t < s).size + 1 := by
  have hsome : a.states ≠ ∅ := OrderedSet.ne_empty_of_mem hs
  unfold indexOf
  rw [indexOrder_eq hsome, List.idxOf_cons_ne _ hstart, idxOf_map_some,
    idxOf_of_ascending a.others.ascending (mem_others.2 ⟨hs, hstart⟩)]
  rfl

/-- The id of a state after writing and reading is the id at its index. -/
theorem renumbered_eq {s : StateId} (hs : s ∈ a.states) :
    a.renumbered s = idAt (a.indexOf s) := by
  unfold renumbered
  by_cases hstart : a.start = some s
  · rw [if_pos hstart, indexOf_start hstart]
    rfl
  · rw [if_neg hstart, indexOf_of_not_start hs hstart]
    unfold idAt StateId
    omega

/-! ## §3. Indices. -/

theorem mem_indexOrder (h : a.WellFormed) {s : StateId} :
    some s ∈ a.indexOrder ↔ s ∈ a.states := by
  by_cases hsome : a.states = ∅
  · rw [indexOrder_eq_nil h hsome, hsome]
    exact iff_of_false List.not_mem_nil (OrderedSet.not_mem_empty s)
  · have hothers : some s ∈ a.others.toList.map some ↔ s ∈ a.others := by
      simp [OrderedSet.mem_toList]
    rw [indexOrder_eq hsome, List.mem_cons, hothers, mem_others]
    constructor
    · intro hs
      obtain hs | hs := hs
      · exact h.start_mem s hs.symm
      · exact hs.1
    · intro hs
      by_cases hstart : a.start = some s
      · exact Or.inl hstart.symm
      · exact Or.inr ⟨hs, hstart⟩

theorem nodup_indexOrder (h : a.WellFormed) : a.indexOrder.Nodup := by
  by_cases hsome : a.states = ∅
  · rw [indexOrder_eq_nil h hsome]
    exact List.nodup_nil
  · rw [indexOrder_eq hsome, List.nodup_cons]
    refine ⟨?_, List.Nodup.map (fun _ _ => Option.some.inj) a.others.nodup⟩
    intro hmem
    obtain ⟨s, hs, hstart⟩ := List.mem_map.1 hmem
    exact (mem_others.1 hs).2 hstart.symm

/-- With a start, the states by index are just the states. -/
theorem length_indexOrder_of_start (h : a.WellFormed) {s : StateId} (hs : a.start = some s) :
    a.indexOrder.length = a.states.size := by
  have hsome : a.states ≠ ∅ := OrderedSet.ne_empty_of_mem (h.start_mem s hs)
  have hnone : none ∉ a.indexOrder := by
    rw [indexOrder_eq hsome, hs]
    simp
  have hnodup : (a.states.toList.map some).Nodup :=
    List.Nodup.map (fun _ _ => Option.some.inj) a.states.nodup
  -- Both list every state once.
  have hperm : a.indexOrder.Perm (a.states.toList.map some) := by
    rw [List.perm_ext_iff_of_nodup (nodup_indexOrder h) hnodup]
    intro t?
    cases t? with
    | none => simp [hnone]
    | some t =>
        rw [mem_indexOrder h]
        simp [OrderedSet.mem_toList]
  rw [hperm.length_eq, List.length_map]
  rfl

/-- Without one, a further state stands in for it. -/
theorem length_indexOrder_of_no_start (hstart : a.start = none) (hsome : a.states ≠ ∅) :
    a.indexOrder.length = a.states.size + 1 := by
  rw [indexOrder_eq hsome, List.length_cons, List.length_map, others_eq_states hstart]
  rfl

theorem indexOf_lt (h : a.WellFormed) {s : StateId} (hs : s ∈ a.states) :
    a.indexOf s < a.indexOrder.length :=
  List.idxOf_lt_length_iff.2 ((mem_indexOrder h).2 hs)

theorem getElem?_indexOf (h : a.WellFormed) {s : StateId} (hs : s ∈ a.states) :
    a.indexOrder[a.indexOf s]? = some (some s) := by
  rw [List.getElem?_eq_getElem (indexOf_lt h hs)]
  exact congrArg some (List.getElem_idxOf _)

theorem indexOf_inj (h : a.WellFormed) {s t : StateId} (hs : s ∈ a.states)
    (ht : t ∈ a.states) (heq : a.indexOf s = a.indexOf t) : s = t := by
  have hget := getElem?_indexOf h hs
  rw [heq, getElem?_indexOf h ht] at hget
  injection hget with hget
  injection hget with hget
  exact hget.symm

/-- An index is that of a state, or it is the first and stands for no state. -/
theorem index_cases (h : a.WellFormed) {i : Nat} (hi : i < a.indexOrder.length) :
    (∃ s ∈ a.states, i = a.indexOf s)
      ∨ i = 0 ∧ a.start = none ∧ a.indexOrder[i]? = some none := by
  cases hget : a.indexOrder[i] with
  | some s =>
      refine Or.inl ⟨s, (mem_indexOrder h).1 (hget ▸ List.getElem_mem hi), ?_⟩
      unfold indexOf
      rw [← hget]
      exact ((nodup_indexOrder h).idxOf_getElem i hi).symm
  | none =>
      have hget? : a.indexOrder[i]? = some none := List.getElem?_eq_some_iff.2 ⟨hi, hget⟩
      have hsome : a.states ≠ ∅ := by
        intro e
        rw [indexOrder_eq_nil h e] at hi
        exact absurd hi (Nat.not_lt_zero i)
      -- Only the place of the start can be empty.
      have horder := hget?
      rw [indexOrder_eq hsome] at horder
      cases i with
      | zero => exact Or.inr ⟨rfl, Option.some_inj.1 horder, hget?⟩
      | succ i => simp at horder

/-! ## §4. What is written. -/

theorem row_toDefinition {i : Nat} {s? : Option StateId} (hi : a.indexOrder[i]? = some s?) :
    a.toDefinition.row i = a.definitionRow s? := by
  unfold Definition.row toDefinition
  rw [List.getD_eq_getElem?_getD, List.getElem?_map, hi]
  rfl

theorem name_toDefinition {i : Nat} {s? : Option StateId} (hi : a.indexOrder[i]? = some s?) :
    a.toDefinition.name i = a.definitionName s? := by
  unfold Definition.name toDefinition
  rw [List.getD_eq_getElem?_getD, List.getElem?_map, hi]
  rfl

/-- The name that is written for a state is the one it has. -/
theorem definitionName_of_get? {s : StateId} {n : Json} (hs : s ∈ a.states)
    (h : a.names.get? s = some n) : a.definitionName (some s) = n := by
  show a.name (.id s) = n
  unfold name OrderedMap.getD
  rw [resolve?_eq_some_iff.2 ⟨rfl, hs⟩]
  dsimp only
  rw [h]
  rfl

/-- A transition is written for each edge. -/
theorem mem_definitionRow {s : StateId} {e : Transition} :
    e ∈ a.definitionRow (some s) ↔
      ∃ t g, a.table.label? s t = some g ∧ e = (a.indexOf t, g.text) := by
  unfold definitionRow
  rw [List.mem_map]
  constructor
  · intro h
    obtain ⟨⟨t, g⟩, hmem, rfl⟩ := h
    exact ⟨t, g, OrderedMap.get?_eq_some_iff.2 hmem, rfl⟩
  · intro h
    obtain ⟨t, g, hl, rfl⟩ := h
    exact ⟨(t, g), OrderedMap.get?_eq_some_iff.1 hl, rfl⟩

theorem mem_accept_toDefinition {i : Nat} :
    i ∈ a.toDefinition.accept ↔ ∃ s ∈ a.accept, i = a.indexOf s := by
  unfold toDefinition
  rw [List.mem_mergeSort, List.mem_map]
  simp [OrderedSet.mem_toList, eq_comm]

/-- The transitions from an index are those from a state. -/
theorem mem_row_toDefinition (h : a.WellFormed) {i : Nat} (hi : i < a.toDefinition.count)
    {e : Transition} : e ∈ a.toDefinition.row i ↔
      ∃ s ∈ a.states, i = a.indexOf s
        ∧ ∃ t g, a.table.label? s t = some g ∧ e = (a.indexOf t, g.text) := by
  obtain ⟨s, hs, rfl⟩ | ⟨rfl, hstart, hget⟩ := index_cases h hi
  · rw [row_toDefinition (getElem?_indexOf h hs), mem_definitionRow]
    constructor
    · exact fun he => ⟨s, hs, rfl, he⟩
    · intro he
      obtain ⟨s', hs', heq, he⟩ := he
      rw [indexOf_inj h hs hs' heq]
      exact he
  · rw [row_toDefinition hget]
    constructor
    -- What stands in for the start has no transitions.
    · exact fun he => absurd he List.not_mem_nil
    · intro he
      obtain ⟨s, hs, heq, _⟩ := he
      have hsome := getElem?_indexOf h hs
      rw [← heq, hget] at hsome
      cases hsome

/-- What is written can be read. -/
theorem readable_toDefinition (h : a.WellFormed) : a.toDefinition.Readable where
  accept_lt i hi := by
    obtain ⟨s, hs, rfl⟩ := mem_accept_toDefinition.1 hi
    exact indexOf_lt h (h.accept_subset s hs)
  target_lt i hi e he := by
    obtain ⟨s, _, _, t, g, hl, rfl⟩ := (mem_row_toDefinition h hi).1 he
    exact indexOf_lt h (h.target_mem s t g hl)
  texts i hi e he := by
    obtain ⟨s, _, _, t, g, hl, rfl⟩ := (mem_row_toDefinition h hi).1 he
    exact ⟨g, SymbolSet.read_text (h.label_nonempty s t g hl)⟩
  alphabet text htext := by
    obtain ⟨g, _, rfl⟩ := Option.map_eq_some_iff.1 htext
    -- An alphabet may match nothing, a label may not.
    by_cases hg : g = ∅
    · exact ⟨_, hg ▸ SymbolSet.read_text_empty⟩
    · exact ⟨g, SymbolSet.read_text hg⟩

/-! ## §5. What is read. -/

theorem renumbered_inj (ha : a.WellFormed) {s t : StateId} (hs : s ∈ a.states)
    (ht : t ∈ a.states) (heq : a.renumbered s = a.renumbered t) : s = t := by
  rw [renumbered_eq hs, renumbered_eq ht, idAt_inj] at heq
  exact indexOf_inj ha hs ht heq

/-- The first id is kept for the start. -/
theorem two_le_renumbered {s : StateId} (hstart : a.start ≠ some s) : 2 ≤ a.renumbered s := by
  unfold renumbered StateId
  rw [if_neg hstart]
  omega

theorem mem_states_read (ha : a.WellFormed) (hd : a.toDefinition.Describes f) {q : StateId} :
    q ∈ f.states ↔ (∃ s ∈ a.states, a.renumbered s = q)
      ∨ q = 1 ∧ a.start = none ∧ a.states ≠ ∅ := by
  rw [hd.mem_states]
  constructor
  · intro h
    obtain ⟨i, hi, rfl⟩ := h
    obtain ⟨s, hs, rfl⟩ | ⟨rfl, hstart, hget⟩ := index_cases ha hi
    · exact Or.inl ⟨s, hs, renumbered_eq hs⟩
    · refine Or.inr ⟨rfl, hstart, ?_⟩
      intro e
      rw [indexOrder_eq_nil ha e] at hget
      cases hget
  · intro h
    obtain ⟨s, hs, rfl⟩ | ⟨rfl, _, hsome⟩ := h
    · exact ⟨a.indexOf s, indexOf_lt ha hs, renumbered_eq hs⟩
    · refine ⟨0, ?_, rfl⟩
      show 0 < a.indexOrder.length
      rw [indexOrder_eq hsome]
      exact Nat.succ_pos _

/-- The edges that are read are those that were written. -/
theorem carries_read (ha : a.WellFormed) (hd : a.toDefinition.Describes f) {p q : StateId}
    {x : Symbol} : f.table.Carries p q x ↔
      ∃ s ∈ a.states, ∃ t ∈ a.states, a.renumbered s = p ∧ a.renumbered t = q
        ∧ a.table.Carries s t x := by
  rw [hd.carries]
  constructor
  · intro h
    -- A listed symbol comes from the text of one edge, which reads back as its label.
    obtain ⟨i, hi, rfl, e, he, rfl, hlists⟩ := h
    obtain ⟨s, hs, rfl, t, g, hl, rfl⟩ := (mem_row_toDefinition ha hi).1 he
    have ht := ha.target_mem s t g hl
    have hread := SymbolSet.read_text (ha.label_nonempty s t g hl)
    exact ⟨s, hs, t, ht, renumbered_eq hs, renumbered_eq ht, g, hl,
      (SymbolSet.lists_of_read hread).1 hlists⟩
  · intro h
    obtain ⟨s, hs, t, ht, rfl, rfl, g, hl, hx⟩ := h
    have hi := indexOf_lt ha hs
    have hread := SymbolSet.read_text (ha.label_nonempty s t g hl)
    exact ⟨a.indexOf s, hi, renumbered_eq hs, (a.indexOf t, g.text),
      (mem_row_toDefinition ha hi).2 ⟨s, hs, rfl, t, g, hl, rfl⟩, renumbered_eq ht,
      (SymbolSet.lists_of_read hread).2 hx⟩

theorem renames_read (ha : a.WellFormed) (hf : f.WellFormed)
    (hd : a.toDefinition.Describes f) : Renames a.renumbered a f where
  injective s hs t ht := renumbered_inj ha hs ht
  mem_states s hs := (mem_states_read ha hd).2 (Or.inl ⟨s, hs, rfl⟩)
  names s hs := by
    obtain ⟨n, hn⟩ := ha.mem_states_iff_name.1 hs
    -- The name that is written for a state is the one it has.
    have hname : a.toDefinition.name (a.indexOf s) = n := by
      rw [name_toDefinition (getElem?_indexOf ha hs), definitionName_of_get? hs hn]
    rw [hn, hd.names]
    exact ⟨a.indexOf s, indexOf_lt ha hs, renumbered_eq hs, hname.symm⟩
  accept s hs := by
    rw [hd.accept]
    constructor
    · intro h
      obtain ⟨i, hi, heq⟩ := h
      obtain ⟨t, ht, rfl⟩ := mem_accept_toDefinition.1 hi
      have htstate := ha.accept_subset t ht
      rw [← renumbered_eq htstate] at heq
      rw [renumbered_inj ha hs htstate heq]
      exact ht
    · intro h
      exact ⟨a.indexOf s, mem_accept_toDefinition.2 ⟨s, h, rfl⟩, renumbered_eq hs⟩
  label s hs t ht := by
    apply label?_eq_of_carries ha hf
    intro x
    rw [carries_read ha hd]
    constructor
    · intro h
      obtain ⟨s', hs', t', ht', heqs, heqt, hx⟩ := h
      rw [renumbered_inj ha hs' hs heqs, renumbered_inj ha ht' ht heqt] at hx
      exact hx
    · exact fun hx => ⟨s, hs, t, ht, rfl, rfl, hx⟩

theorem alphabet_read (ha : a.WellFormed) (hd : a.toDefinition.Describes f) :
    f.alphabet = a.alphabet := by
  have hwritten : a.toDefinition.alphabet = a.alphabet.map SymbolSet.text := rfl
  cases halpha : a.alphabet with
  | none =>
      rw [halpha] at hwritten
      exact hd.alphabet_none hwritten
  | some g =>
      rw [halpha] at hwritten
      obtain ⟨g', hread, hf⟩ := hd.alphabet_some g.text hwritten
      rw [hf, SymbolSet.withoutEmpty_of_read_text (ha.alphabet_chars g halpha) hread]

/-- Without a start the first state that is read stands alone. -/
theorem first_read (ha : a.WellFormed) (hf : f.WellFormed) (hd : a.toDefinition.Describes f)
    (hstart : a.start = none) :
    1 ∉ f.accept ∧ ∀ q, f.table.label? 1 q = none ∧ f.table.label? q 1 = none := by
  -- Without a start no state gets the first id.
  have hne : ∀ s, a.renumbered s ≠ 1 := by
    intro s e
    have htwo : 2 ≤ a.renumbered s := two_le_renumbered (by simp [hstart])
    rw [e] at htwo
    exact absurd htwo (by decide)
  refine ⟨?_, fun q => ⟨label?_eq_none_of_not_carries hf ?_, label?_eq_none_of_not_carries hf ?_⟩⟩
  · intro h
    obtain ⟨i, hi, heq⟩ := (hd.accept 1).1 h
    obtain ⟨s, hs, rfl⟩ := mem_accept_toDefinition.1 hi
    rw [← renumbered_eq (ha.accept_subset s hs)] at heq
    exact hne s heq.symm
  · intro x h
    obtain ⟨s, _, _, _, heq, _⟩ := (carries_read ha hd).1 h
    exact hne s heq
  · intro x h
    obtain ⟨_, _, t, _, _, heq, _⟩ := (carries_read ha hd).1 h
    exact hne t heq

theorem start_read (ha : a.WellFormed) (hd : a.toDefinition.Describes f) :
    f.start = if a.states = ∅ then none else some 1 := by
  rw [hd.start_eq]
  show (if a.indexOrder.length = 0 then none else some (idAt 0)) = _
  by_cases hsome : a.states = ∅
  · rw [indexOrder_eq_nil ha hsome, List.length_nil, if_pos rfl, if_pos hsome]
  · rw [indexOrder_eq hsome, List.length_cons, if_neg (Nat.succ_ne_zero _), if_neg hsome]
    rfl

theorem accepts_read (ha : a.WellFormed) (hf : f.WellFormed)
    (hd : a.toDefinition.Describes f) (w : List Char) : f.accepts w = a.accepts w := by
  cases hstart : a.start with
  | some s =>
      have hsome : a.states ≠ ∅ := OrderedSet.ne_empty_of_mem (ha.start_mem s hstart)
      -- With a start there are no further states.
      refine (renames_read ha hf hd).accepts_eq ha hf ?_ ?_ w
      · intro q hq
        obtain h | ⟨_, hnone, _⟩ := (mem_states_read ha hd).1 hq
        · exact h
        · rw [hstart] at hnone
          cases hnone
      · rw [start_read ha hd, if_neg hsome, hstart, Option.map_some, renumbered, if_pos hstart]
  | none =>
      rw [accepts_eq_false_of_no_start hstart]
      by_cases hsome : a.states = ∅
      · have hfstart := start_read ha hd
        rw [if_pos hsome] at hfstart
        exact accepts_eq_false_of_no_start hfstart w
      · obtain ⟨haccept, hedges⟩ := first_read ha hf hd hstart
        have hfstart := start_read ha hd
        rw [if_neg hsome] at hfstart
        exact accepts_eq_false hfstart haccept (fun q => (hedges q).1) w

/-! ## §6. The round trip. -/

/-- **An automaton that is written is read as the same automaton under other ids.**
With a start, the start gets the first id and the other states the ids behind it in
their order; without one, the first id is that of a further state, a start that does
not accept and has no edges.  Either way the same words are accepted. -/
theorem ofDefinition_toDefinition {supply : IdSupply} (h : InLineage a supply) :
    ∃ f, ofDefinition a.toDefinition = .ok f
      ∧ Renames a.renumbered a f
      ∧ (∀ s, a.start = some s →
          f.start = some 1 ∧ a.renumbered s = 1
            ∧ (∀ q, q ∈ f.states ↔ 1 ≤ q ∧ q ≤ a.states.size)
            ∧ ∀ q ∈ f.states, ∃ t ∈ a.states, a.renumbered t = q)
      ∧ (a.start = none → a.states ≠ ∅ →
          f.start = some 1 ∧ (∀ t ∈ a.states, 2 ≤ a.renumbered t)
            ∧ (∀ q, q ∈ f.states ↔ 1 ≤ q ∧ q ≤ a.states.size + 1)
            ∧ (∀ q ∈ f.states, q ≠ 1 → ∃ t ∈ a.states, a.renumbered t = q)
            ∧ 1 ∉ f.accept
            ∧ ∀ q, f.table.label? 1 q = none ∧ f.table.label? q 1 = none)
      ∧ (a.states = ∅ → f.states = ∅ ∧ f.start = none)
      ∧ f.alphabet = a.alphabet
      ∧ ∀ w, f.accepts w = a.accepts w := by
  have ha := h.suppliedBy.wellFormed
  obtain ⟨f, hread, hd⟩ := ofDefinition_ok (readable_toDefinition ha)
  have hf := wellFormed_ofDefinition hread
  have hstart := start_read ha hd
  -- One case for each way to have a start: with one, without one, without states.
  refine ⟨f, hread, renames_read ha hf hd, ?_, ?_, ?_, alphabet_read ha hd,
    accepts_read ha hf hd⟩
  · intro s hs
    have hsome : a.states ≠ ∅ := OrderedSet.ne_empty_of_mem (ha.start_mem s hs)
    rw [if_neg hsome] at hstart
    refine ⟨hstart, by rw [renumbered, if_pos hs], ?_, ?_⟩
    · intro q
      have hcount : a.toDefinition.count = a.states.size := length_indexOrder_of_start ha hs
      rw [hd.mem_states_iff, hcount]
    · intro q hq
      obtain hq | ⟨_, hnone, _⟩ := (mem_states_read ha hd).1 hq
      · exact hq
      · rw [hs] at hnone
        cases hnone
  · intro hnone hsome
    rw [if_neg hsome] at hstart
    obtain ⟨haccept, hedges⟩ := first_read ha hf hd hnone
    refine ⟨hstart, ?_, ?_, ?_, haccept, hedges⟩
    · intro t _
      exact two_le_renumbered (by simp [hnone])
    · intro q
      have hcount : a.toDefinition.count = a.states.size + 1 :=
        length_indexOrder_of_no_start hnone hsome
      rw [hd.mem_states_iff, hcount]
      rfl
    · intro q hq hne
      obtain hq | ⟨heq, _⟩ := (mem_states_read ha hd).1 hq
      · exact hq
      · exact absurd heq hne
  · intro hnone
    rw [if_pos hnone] at hstart
    refine ⟨OrderedSet.ext fun q => ?_, hstart⟩
    rw [mem_states_read ha hd, hnone]
    simp

theorem ofDefinition_toDefinition_oneLetter :
    ∃ f, ofDefinition oneLetter.toDefinition = .ok f
      ∧ f.start = some 1 ∧ ∀ w, f.accepts w = oneLetter.accepts w := by
  obtain ⟨f, hread, _, hstarted, _, _, _, haccepts⟩ :=
    ofDefinition_toDefinition inLineage_oneLetter
  exact ⟨f, hread, (hstarted 1 rfl).1, haccepts⟩

end Automaton

end FiniteAutomata
