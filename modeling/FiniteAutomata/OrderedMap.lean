/-
  FiniteAutomata.OrderedMap
  ─────────────────────────
  **Finite maps kept in ascending order of their keys.**

  A map is the list of its entries, keys strictly ascending, and the order is
  part of the type.  Two maps that answer every look-up alike are equal
  (`OrderedMap.ext`), and each operation is pinned down by the look-ups of its
  result:

      get?_insert, get?_erase, get?_filterMap, get?_map, get?_filter, get?_tabulate

  What it does to the keys alone is said once more as an equation of sets, since
  maps are kept in step with each other by their keys:

      keys_insert, keys_erase, keys_map, keys_filter, keys_tabulate
-/
import FiniteAutomata.OrderedSet

namespace FiniteAutomata

/-- A finite map, as the list of its entries by ascending key. -/
structure OrderedMap (κ : Type) [KeyOrder κ] (β : Type) where
  entries : List (κ × β)
  ascending : entries.Pairwise (·.1 < ·.1)

namespace OrderedMap

/-- The first entry under a key is the one found. -/
theorem lookup_cons_eq {κ β : Type} [DecidableEq κ] (k : κ) (e : κ × β)
    (es : List (κ × β)) :
    (e :: es).lookup k = if k = e.1 then some e.2 else es.lookup k := by
  rw [List.lookup_cons]
  by_cases h : k = e.1
  · rw [if_pos h, beq_iff_eq.2 h]
  · rw [if_neg h, beq_eq_false_iff_ne.2 h]

variable {κ β γ : Type} [KeyOrder κ]

/-! ## §1. Operations. -/

/-- Put `v` at the place of `k` in an ascending list of entries, over the value
that stood there. -/
def place (k : κ) (v : β) : List (κ × β) → List (κ × β)
  | [] => [(k, v)]
  | e :: es =>
      if k < e.1 then (k, v) :: e :: es
      else if e.1 < k then e :: place k v es
      else (k, v) :: es

theorem mem_place {k : κ} {v : β} {e : κ × β} {l : List (κ × β)}
    (h : e ∈ place k v l) : e = (k, v) ∨ e ∈ l := by
  induction l with
  | nil => simpa [place] using h
  | cons d ds ih =>
      simp only [place] at h
      split at h
      · simpa using h
      · split at h
        · rcases List.mem_cons.1 h with rfl | h
          · simp
          · rcases ih h with rfl | h <;> simp [*]
        · rcases List.mem_cons.1 h with rfl | h <;> simp [*]

theorem pairwise_place {k : κ} {v : β} {l : List (κ × β)}
    (h : l.Pairwise (·.1 < ·.1)) : (place k v l).Pairwise (·.1 < ·.1) := by
  induction l with
  | nil => simp [place]
  | cons d ds ih =>
      rw [List.pairwise_cons] at h
      simp only [place]
      split
      · next hk =>
        refine List.pairwise_cons.2 ⟨?_, List.pairwise_cons.2 h⟩
        intro e he
        rcases List.mem_cons.1 he with rfl | he
        · exact hk
        · exact KeyOrder.trans hk (h.1 e he)
      · split
        · next hd =>
          refine List.pairwise_cons.2 ⟨?_, ih h.2⟩
          intro e he
          rcases mem_place he with rfl | he
          · exact hd
          · exact h.1 e he
        · next hk hd =>
          have : k = d.1 := KeyOrder.eq_of_not_lt hk hd
          subst this
          exact List.pairwise_cons.2 h

/-- The map without entries. -/
def empty : OrderedMap κ β := ⟨[], List.Pairwise.nil⟩

instance : EmptyCollection (OrderedMap κ β) := ⟨empty⟩

instance : Inhabited (OrderedMap κ β) := ⟨∅⟩

/-- The map with `v` stored under `k`. -/
def insert (m : OrderedMap κ β) (k : κ) (v : β) : OrderedMap κ β :=
  ⟨place k v m.entries, pairwise_place m.ascending⟩

/-- The entries of a list stored one after the other. -/
def ofList (l : List (κ × β)) : OrderedMap κ β :=
  l.foldl (fun m e => m.insert e.1 e.2) ∅

/-- The values, by ascending key. -/
def values (m : OrderedMap κ β) : List β := m.entries.map (·.2)

/-- The keys. -/
def keys (m : OrderedMap κ β) : OrderedSet κ :=
  ⟨m.entries.map (·.1), List.pairwise_map.2 m.ascending⟩

/-- The map that has the members of a set as keys. -/
def tabulate (s : OrderedSet κ) (f : κ → β) : OrderedMap κ β :=
  ⟨s.toList.map fun k => (k, f k), List.pairwise_map.2 s.ascending⟩

/-- Keep, change or drop each entry. -/
def filterMap (f : κ → β → Option γ) (m : OrderedMap κ β) : OrderedMap κ γ :=
  ⟨m.entries.filterMap fun e => (f e.1 e.2).map (e.1, ·), by
    refine List.Pairwise.filterMap _ ?_ m.ascending
    intro a b hab c hc d hd
    simp only [Option.map_eq_some_iff] at hc hd
    obtain ⟨_, _, rfl⟩ := hc
    obtain ⟨_, _, rfl⟩ := hd
    exact hab⟩

/-- Keep the entries that satisfy a test. -/
def filter (p : κ → β → Bool) (m : OrderedMap κ β) : OrderedMap κ β :=
  m.filterMap fun k v => if p k v then some v else none

/-- Change every value. -/
def map (f : κ → β → γ) (m : OrderedMap κ β) : OrderedMap κ γ :=
  m.filterMap fun k v => some (f k v)

theorem eq_of_entries_eq {m n : OrderedMap κ β} (h : m.entries = n.entries) :
    m = n := by
  cases m
  cases n
  cases h
  rfl

section DecidableEq

variable [DecidableEq κ]

/-- The value stored under a key. -/
def get? (m : OrderedMap κ β) (k : κ) : Option β := m.entries.lookup k

/-- The value stored under a key, or `v` if there is none. -/
def getD (m : OrderedMap κ β) (k : κ) (v : β) : β := (m.get? k).getD v

/-- The map with nothing stored under `k`. -/
def erase (m : OrderedMap κ β) (k : κ) : OrderedMap κ β :=
  m.filter fun k' _ => k' ≠ k

/-! ## §2. Equal look-ups, equal maps. -/

instance [DecidableEq β] : DecidableEq (OrderedMap κ β) := fun m n =>
  if h : m.entries = n.entries then isTrue (eq_of_entries_eq h)
  else isFalse fun e => h (e ▸ rfl)

theorem lookup_eq_some_iff {k : κ} {v : β} {l : List (κ × β)}
    (h : l.Pairwise (·.1 < ·.1)) : l.lookup k = some v ↔ (k, v) ∈ l := by
  induction l with
  | nil => simp
  | cons e es ih =>
      rw [List.pairwise_cons] at h
      rw [lookup_cons_eq, List.mem_cons]
      split
      · next he =>
        subst he
        constructor
        · intro hv
          cases hv
          exact Or.inl rfl
        · rintro (hv | hv)
          · rw [← hv]
          · exact absurd (h.1 _ hv) (KeyOrder.irrefl _)
      · next he =>
        rw [ih h.2]
        constructor
        · exact Or.inr
        · rintro (rfl | hv)
          · exact absurd rfl he
          · exact hv

theorem get?_eq_some_iff {m : OrderedMap κ β} {k : κ} {v : β} :
    m.get? k = some v ↔ (k, v) ∈ m.entries := lookup_eq_some_iff m.ascending

theorem get?_eq_none_iff {m : OrderedMap κ β} {k : κ} :
    m.get? k = none ↔ k ∉ m.keys := by
  rw [Option.eq_none_iff_forall_ne_some]
  simp only [ne_eq, get?_eq_some_iff]
  constructor
  · intro h hk
    obtain ⟨e, he, rfl⟩ := List.mem_map.1 hk
    exact h e.2 he
  · intro h v hv
    exact h (List.mem_map.2 ⟨_, hv, rfl⟩)

theorem mem_keys {m : OrderedMap κ β} {k : κ} :
    k ∈ m.keys ↔ ∃ v, m.get? k = some v := by
  rw [← Option.ne_none_iff_exists', ne_eq, get?_eq_none_iff, Classical.not_not]

theorem eq_of_lookup_eq : ∀ {l m : List (κ × β)}, l.Pairwise (·.1 < ·.1) →
    m.Pairwise (·.1 < ·.1) → (∀ k, l.lookup k = m.lookup k) → l = m
  | [], [], _, _, _ => rfl
  | [], e :: _, _, _, h => by simpa [lookup_cons_eq] using h e.1
  | d :: _, [], _, _, h => by simpa [lookup_cons_eq] using h d.1
  | d :: ds, e :: es, hl, hm, h => by
      have hd : (d.1, d.2) ∈ e :: es :=
        (lookup_eq_some_iff hm).1 (h d.1 ▸ by simp [lookup_cons_eq])
      have he : (e.1, e.2) ∈ d :: ds :=
        (lookup_eq_some_iff hl).1 (h e.1 ▸ by simp [lookup_cons_eq])
      rw [List.pairwise_cons] at hl hm
      have hde : d = e := by
        rcases List.mem_cons.1 hd with hd | hd
        · exact hd
        · rcases List.mem_cons.1 he with he | he
          · exact he.symm
          · exact absurd (hl.1 _ he) (KeyOrder.asymm (hm.1 _ hd))
      subst hde
      congr 1
      refine eq_of_lookup_eq hl.2 hm.2 fun k => ?_
      have hk := h k
      rw [lookup_cons_eq, lookup_cons_eq] at hk
      by_cases hkd : k = d.1
      · have absent : ∀ es : List (κ × β), (∀ e ∈ es, d.1 < e.1) →
            es.lookup k = none := by
          intro es hes
          induction es with
          | nil => rfl
          | cons e es ih =>
              rw [lookup_cons_eq, if_neg, ih fun e' he' => hes e' (by simp [he'])]
              rw [hkd]
              exact KeyOrder.ne_of_lt (hes e (by simp))
        rw [absent ds hl.1, absent es hm.1]
      · simpa [hkd] using hk

/-- Maps that answer every look-up alike are equal. -/
@[ext] theorem ext {m n : OrderedMap κ β} (h : ∀ k, m.get? k = n.get? k) : m = n :=
  eq_of_entries_eq (eq_of_lookup_eq m.ascending n.ascending h)

/-! ## §3. The look-ups of each result. -/

@[simp] theorem get?_empty (k : κ) : (∅ : OrderedMap κ β).get? k = none := rfl

theorem lookup_place (k k' : κ) (v : β) (l : List (κ × β)) :
    (place k v l).lookup k' = if k' = k then some v else l.lookup k' := by
  induction l with
  | nil => rw [place, lookup_cons_eq]
  | cons e es ih =>
      simp only [place]
      split
      · rw [lookup_cons_eq]
      · split
        · next h =>
          rw [lookup_cons_eq, lookup_cons_eq, ih]
          by_cases h' : k' = e.1
          · rw [if_pos h', if_pos h', if_neg]
            rw [h']
            exact KeyOrder.ne_of_lt h
          · rw [if_neg h', if_neg h']
        · next h h' =>
          have : k = e.1 := KeyOrder.eq_of_not_lt h h'
          rw [lookup_cons_eq, lookup_cons_eq, this]
          by_cases hk : k' = e.1
          · rw [if_pos hk, if_pos hk]
          · rw [if_neg hk, if_neg hk, if_neg hk]

theorem get?_insert (m : OrderedMap κ β) (k k' : κ) (v : β) :
    (m.insert k v).get? k' = if k' = k then some v else m.get? k' :=
  lookup_place k k' v m.entries

@[simp] theorem get?_insert_self (m : OrderedMap κ β) (k : κ) (v : β) :
    (m.insert k v).get? k = some v := by
  rw [get?_insert, if_pos rfl]

theorem get?_insert_of_ne (m : OrderedMap κ β) {k k' : κ} (h : k' ≠ k) (v : β) :
    (m.insert k v).get? k' = m.get? k' := by
  rw [get?_insert, if_neg h]

/-- An entry that no entry of the map contradicts is added to its entries. -/
theorem get?_insert_eq_some_iff {m : OrderedMap κ β} {k : κ} {v : β}
    (hagree : ∀ v', m.get? k = some v' → v' = v) {k' : κ} {v' : β} :
    (m.insert k v).get? k' = some v' ↔ m.get? k' = some v' ∨ k' = k ∧ v' = v := by
  rw [get?_insert]
  by_cases hk : k' = k
  · subst hk
    rw [if_pos rfl, Option.some.injEq]
    constructor
    · exact fun h => Or.inr ⟨rfl, h.symm⟩
    · intro h
      obtain h | ⟨_, h⟩ := h
      · exact (hagree v' h).symm
      · exact h.symm
  · simp [hk]

theorem get?_filterMap (f : κ → β → Option γ) (m : OrderedMap κ β) (k : κ) :
    (m.filterMap f).get? k = (m.get? k).bind (f k) := by
  apply Option.ext
  intro v
  rw [get?_eq_some_iff, Option.bind_eq_some_iff]
  simp only [filterMap, List.mem_filterMap, Option.map_eq_some_iff, get?_eq_some_iff]
  constructor
  · rintro ⟨e, he, w, hw, hv⟩
    cases hv
    exact ⟨e.2, he, hw⟩
  · rintro ⟨w, hw, hv⟩
    exact ⟨(k, w), hw, v, hv, rfl⟩

theorem get?_map (f : κ → β → γ) (m : OrderedMap κ β) (k : κ) :
    (m.map f).get? k = (m.get? k).map (f k) := by
  rw [map, get?_filterMap]
  cases m.get? k <;> rfl

theorem get?_filter (p : κ → β → Bool) (m : OrderedMap κ β) (k : κ) :
    (m.filter p).get? k = (m.get? k).filter (p k) := by
  rw [filter, get?_filterMap]
  cases m.get? k with
  | none => rfl
  | some v => simp [Option.filter]

theorem get?_erase (m : OrderedMap κ β) (k k' : κ) :
    (m.erase k).get? k' = if k' = k then none else m.get? k' := by
  rw [erase, get?_filter]
  by_cases h : k' = k
  · cases m.get? k' <;> simp [h]
  · cases m.get? k' <;> simp [h]

theorem get?_tabulate (s : OrderedSet κ) (f : κ → β) (k : κ) :
    (tabulate s f).get? k = if k ∈ s then some (f k) else none := by
  apply Option.ext
  intro v
  rw [get?_eq_some_iff]
  unfold tabulate
  rw [List.mem_map]
  constructor
  · intro h
    obtain ⟨k', hk', he⟩ := h
    cases he
    exact if_pos hk'
  · intro h
    by_cases hk : k ∈ s
    · rw [if_pos hk] at h
      cases h
      exact ⟨k, hk, rfl⟩
    · simp [hk] at h

theorem mem_values {m : OrderedMap κ β} {v : β} :
    v ∈ m.values ↔ ∃ k, m.get? k = some v := by
  simp only [values, List.mem_map, get?_eq_some_iff]
  constructor
  · rintro ⟨e, he, rfl⟩
    exact ⟨e.1, he⟩
  · rintro ⟨k, hk⟩
    exact ⟨_, hk, rfl⟩

/-! ## §4. The keys of each result. -/

theorem keys_insert (m : OrderedMap κ β) (k : κ) (v : β) :
    (m.insert k v).keys = OrderedSet.insert k m.keys := by
  apply OrderedSet.ext
  intro k'
  rw [OrderedSet.mem_insert, mem_keys, mem_keys]
  simp only [get?_insert]
  by_cases h : k' = k <;> simp [h]

/-- A value for a key that is there already adds no key. -/
theorem keys_insert_of_mem {m : OrderedMap κ β} {k : κ} (hk : k ∈ m.keys) (v : β) :
    (m.insert k v).keys = m.keys := by
  rw [keys_insert, OrderedSet.insert_eq_self hk]

theorem keys_map (m : OrderedMap κ β) (f : κ → β → γ) : (m.map f).keys = m.keys := by
  apply OrderedSet.ext
  intro k
  rw [mem_keys, mem_keys, get?_map]
  cases m.get? k <;> simp

theorem keys_filter (m : OrderedMap κ β) (p : κ → Bool) :
    (m.filter fun k _ => p k).keys = m.keys.filter p := by
  apply OrderedSet.ext
  intro k
  rw [OrderedSet.mem_filter, mem_keys, mem_keys, get?_filter]
  cases m.get? k <;> simp [Option.filter]

theorem keys_erase (m : OrderedMap κ β) (k : κ) : (m.erase k).keys = m.keys.erase k :=
  keys_filter m (· ≠ k)

end DecidableEq

theorem keys_tabulate (s : OrderedSet κ) (f : κ → β) : (tabulate s f).keys = s := by
  apply OrderedSet.eq_of_toList_eq
  show (s.toList.map fun k => (k, f k)).map (·.1) = s.toList
  rw [List.map_map]
  exact List.map_id s.toList

end OrderedMap

end FiniteAutomata
