/-
  FiniteAutomata.Proofs.Resaving
  ──────────────────────────────
  **WHAT IS WRITTEN, READ AND WRITTEN AGAIN IS SORTED, AND OTHERWISE THE SAME.**

  Writing lists the edges from a state by the ids of their targets and then
  replaces the ids by indices.  The start has the first index whatever its id, so
  in a row it may stand behind others.  What is read has its ids in the order of
  the indices, so it is written with each row by index:

      Describes.unique       a definition describes one automaton
      SameContent.ofDefinition_eq
                             whatever says the same is read as the same
      toDefinition_of_canonical
                             one in the form in which automata with such ids are
                             written is written as it was read
      canonical_tidied       what is written has that form once its rows are sorted
      toDefinition_read      so that is what the automaton read from it is written as
-/
import FiniteAutomata.Proofs.RoundTrip
import Mathlib.Data.List.Sort

namespace FiniteAutomata

/-! ## §1. A definition describes one automaton. -/

namespace Definition

variable {d : Definition} {f f' : Automaton}

/-- **A definition describes one automaton.** -/
theorem Describes.unique (h : d.Describes f) (h' : d.Describes f') (hf : f.WellFormed)
    (hf' : f'.WellFormed) : f = f' := by
  refine hf.ext hf' (h.start_eq.trans h'.start_eq.symm) ?_ ?_ ?_ ?_
  · intro q
    refine Option.ext fun n => ?_
    rw [h.names, h'.names]
  · intro q
    rw [h.accept, h'.accept]
  · intro p q
    refine Automaton.label?_eq_of_carries hf' hf fun x => ?_
    rw [h.carries, h'.carries]
  · cases htext : d.alphabet with
    | none => rw [h.alphabet_none htext, h'.alphabet_none htext]
    | some text =>
        obtain ⟨g, hg, hfg⟩ := h.alphabet_some text htext
        obtain ⟨g', hg', hfg'⟩ := h'.alphabet_some text htext
        rw [hg] at hg'
        injection hg' with hg'
        rw [hfg, hfg', hg']

/-- **A definition that says the same is read as the same automaton.** -/
theorem SameContent.ofDefinition_eq {d' : Definition} (hsame : d.SameContent d')
    (h : d.Readable) (hread : Automaton.ofDefinition d = .ok f) :
    Automaton.ofDefinition d' = .ok f := by
  obtain ⟨f₁, hread₁, hd⟩ := Automaton.ofDefinition_ok h
  cases hread₁.symm.trans hread
  obtain ⟨f', hread', hd'⟩ := Automaton.ofDefinition_ok (hsame.readable h)
  rw [hread', (hsame.describes hd).unique hd' (Automaton.wellFormed_ofDefinition hread)
    (Automaton.wellFormed_ofDefinition hread')]

/-! ## §2. Sorted rows. -/

/-- Transitions by target. -/
def byTarget (l : List Transition) : List Transition := l.mergeSort fun e e' => e.1 ≤ e'.1

/-- The definition with the transitions from each index by target. -/
def tidied (d : Definition) : Definition := { d with transitions := d.transitions.map byTarget }

theorem mem_byTarget {l : List Transition} {e : Transition} : e ∈ byTarget l ↔ e ∈ l :=
  List.mem_mergeSort

theorem pairwise_byTarget (l : List Transition) : (byTarget l).Pairwise (·.1 ≤ ·.1) := by
  have htrans : ∀ e e' e'' : Transition, decide (e.1 ≤ e'.1) → decide (e'.1 ≤ e''.1) →
      decide (e.1 ≤ e''.1) := by
    intro e e' e'' h h'
    exact decide_eq_true (Nat.le_trans (of_decide_eq_true h) (of_decide_eq_true h'))
  have htotal : ∀ e e' : Transition, decide (e.1 ≤ e'.1) || decide (e'.1 ≤ e.1) := by
    intro e e'
    simpa using Nat.le_total e.1 e'.1
  exact (List.pairwise_mergeSort htrans htotal l).imp of_decide_eq_true

/-- Transitions to different targets are in strict order. -/
theorem pairwise_byTarget_of_nodup {l : List Transition} (h : (l.map Prod.fst).Nodup) :
    (byTarget l).Pairwise (·.1 < ·.1) := by
  have hnodup : ((byTarget l).map Prod.fst).Nodup :=
    ((List.mergeSort_perm _ _).map Prod.fst).nodup_iff.2 h
  exact (pairwise_byTarget l).imp₂ (fun _ _ => Nat.lt_of_le_of_ne) (List.pairwise_map.1 hnodup)

/-- In a strict order a target has one transition. -/
theorem eq_of_target_eq {l : List Transition} (hl : l.Pairwise (·.1 < ·.1))
    {e e' : Transition} (he : e ∈ l) (he' : e' ∈ l) (heq : e.1 = e'.1) : e = e' := by
  have hnodup : (l.map Prod.fst).Nodup := List.pairwise_map.2 (hl.imp Nat.ne_of_lt)
  exact List.inj_on_of_nodup_map hnodup he he' heq

/-- In a strict order the same transitions are the same list. -/
theorem eq_of_mem_iff {l m : List Transition} (hl : l.Pairwise (·.1 < ·.1))
    (hm : m.Pairwise (·.1 < ·.1)) (h : ∀ e, e ∈ l ↔ e ∈ m) : l = m := by
  have : Std.Antisymm fun e e' : Transition => e.1 < e'.1 :=
    ⟨fun _ _ h h' => absurd h' (Nat.lt_asymm h)⟩
  have : Std.Irrefl fun e e' : Transition => e.1 < e'.1 := ⟨fun e => Nat.lt_irrefl e.1⟩
  exact hl.eq_of_mem_iff hm h

theorem byTarget_eq_self_iff {l : List Transition} :
    byTarget l = l ↔ l.Pairwise (·.1 ≤ ·.1) := by
  constructor
  · exact fun h => h ▸ pairwise_byTarget l
  · exact fun h => List.mergeSort_of_pairwise (h.imp decide_eq_true)

theorem row_tidied (d : Definition) (i : Nat) : d.tidied.row i = byTarget (d.row i) := by
  unfold row tidied
  rw [List.getD_eq_getElem?_getD, List.getD_eq_getElem?_getD, List.getElem?_map]
  cases d.transitions[i]? with
  | none => exact List.mergeSort_nil.symm
  | some r => rfl

theorem mem_row_tidied {i : Nat} {e : Transition} : e ∈ d.tidied.row i ↔ e ∈ d.row i := by
  rw [row_tidied, mem_byTarget]

theorem tidied_eq_self_iff : d.tidied = d ↔ ∀ r ∈ d.transitions, r.Pairwise (·.1 ≤ ·.1) := by
  have hrows : d.tidied = d ↔ d.transitions.map byTarget = d.transitions.map id := by
    cases d
    simp [tidied]
  rw [hrows, List.map_inj_left]
  exact forall₂_congr fun _ _ => byTarget_eq_self_iff

theorem sameContent_tidied (d : Definition) : d.SameContent d.tidied :=
  sameContent_of_members (fun _ => Iff.rfl)
    (List.forall₂_map_right_iff.2 (List.forall₂_same.2 fun _ _ _ => mem_byTarget))

end Definition

/-! ## §3. Written as it was read. -/

theorem Automaton.idAt_lt_idAt_iff {i j : Nat} : idAt i < idAt j ↔ i < j := by
  show (i : Int) + 1 < (j : Int) + 1 ↔ _
  omega

/-- The accepting indices are written in strict order. -/
theorem Automaton.pairwise_accept_toDefinition {a : Automaton} (ha : a.WellFormed) :
    a.toDefinition.accept.Pairwise (· < ·) := by
  have hle : a.toDefinition.accept.Pairwise (· ≤ ·) := List.pairwise_mergeSort' (· ≤ ·) _
  have hnodup : (a.accept.toList.map a.indexOf).Nodup := by
    refine List.Nodup.map_on (fun s hs t ht => ?_) a.accept.nodup
    exact indexOf_inj ha (ha.accept_subset s hs) (ha.accept_subset t ht)
  have hne : a.toDefinition.accept.Nodup := (List.mergeSort_perm _ _).nodup_iff.2 hnodup
  exact hle.imp₂ (fun _ _ => Nat.lt_of_le_of_ne) hne

/-- What holds along a list in ascending order holds of any two of its entries that
are in that order. -/
theorem pairwise_apply {κ β : Type} [KeyOrder κ] {l : List (κ × β)} {R : κ × β → κ × β → Prop}
    (hl : l.Pairwise (·.1 < ·.1)) (hR : l.Pairwise R) {e e' : κ × β} (he : e ∈ l)
    (he' : e' ∈ l) (hlt : e.1 < e'.1) : R e e' := by
  obtain ⟨i, hi, rfl⟩ := List.getElem_of_mem he
  obtain ⟨j, hj, rfl⟩ := List.getElem_of_mem he'
  rw [List.pairwise_iff_getElem] at hl hR
  obtain hij | rfl | hji := Nat.lt_trichotomy i j
  · exact hR i j hi hj hij
  · exact absurd hlt (KeyOrder.irrefl _)
  · exact absurd hlt (KeyOrder.asymm (hl j i hj hi hji))

/-- A list is that of its elements by index. -/
theorem map_range_getD {α : Type} (l : List α) (x : α) :
    (List.range l.length).map (fun i => l.getD i x) = l :=
  List.ext_getElem (by simp) fun i _ hi => by simp [hi]

namespace Definition

/-- The form in which an automaton is written whose ids are in the order of the
indices: nothing is left out at an end, everything is in strict order, and the
texts are those of sets. -/
structure Canonical (d : Definition) : Prop where
  names : d.names.length = d.count
  rows : d.transitions.length = d.count
  accept : d.accept.Pairwise (· < ·)
  targets : ∀ i < d.count, (d.row i).Pairwise (·.1 < ·.1)
  texts : ∀ i < d.count, ∀ e ∈ d.row i, ∃ g, g ≠ ∅ ∧ e.2 = SymbolSet.text g
  alphabet : ∀ text, d.alphabet = some text →
    ∃ g, Symbol.empty ∉ g ∧ text = SymbolSet.text g

variable {d : Definition} {f : Automaton}

/-- The states behind the first are those of the indices behind the first. -/
theorem Describes.toList_others (h : d.Describes f) {n : Nat} (hcount : d.count = n + 1) :
    f.others.toList = (List.range n).map fun i => Automaton.idAt (i + 1) := by
  have hstart : f.start = some (Automaton.idAt 0) := by
    rw [h.start_eq, if_neg (by omega)]
  refine OrderedSet.eq_of_ascending f.others.ascending ?_ fun q => ?_
  · rw [List.pairwise_map]
    exact List.pairwise_lt_range.imp fun hlt =>
      Automaton.idAt_lt_idAt_iff.2 (Nat.succ_lt_succ hlt)
  · rw [OrderedSet.mem_toList, Automaton.mem_others, h.mem_states, hstart, List.mem_map]
    constructor
    · intro hq
      obtain ⟨⟨i, hi, rfl⟩, hne⟩ := hq
      cases i with
      | zero => exact absurd rfl hne
      | succ i => exact ⟨i, List.mem_range.2 (by omega), rfl⟩
    · intro hq
      obtain ⟨i, hi, rfl⟩ := hq
      have hlt := List.mem_range.1 hi
      refine ⟨⟨i + 1, by omega, rfl⟩, fun e => ?_⟩
      injection e with e
      rw [Automaton.idAt_inj] at e
      exact absurd e (Nat.succ_ne_zero i).symm

/-- What is read has its ids in the order of the indices. -/
theorem Describes.indexOrder_eq (h : d.Describes f) :
    f.indexOrder = (List.range d.count).map fun i => some (Automaton.idAt i) := by
  cases hcount : d.count with
  | zero =>
      have hnone : f.states = ∅ := OrderedSet.ext fun q => by
        rw [h.mem_states, hcount]
        simp
      unfold Automaton.indexOrder
      rw [h.start_eq, if_pos hcount, hnone]
      rfl
  | succ n =>
      have hfirst : Automaton.idAt 0 ∈ f.states := h.mem_states.2 ⟨0, by omega, rfl⟩
      rw [Automaton.indexOrder_eq (OrderedSet.ne_empty_of_mem hfirst), h.toList_others hcount,
        h.start_eq, if_neg (by omega), List.range_succ_eq_map, List.map_cons, List.map_map,
        List.map_map]
      rfl

theorem Describes.indexOf_idAt (h : d.Describes f) {i : Nat} (hi : i < d.count) :
    f.indexOf (Automaton.idAt i) = i := by
  have hnodup : ((List.range d.count).map fun i => some (Automaton.idAt i)).Nodup := by
    refine List.Nodup.map (fun i j e => ?_) List.nodup_range
    exact Automaton.idAt_inj.1 (Option.some.inj e)
  have hlt : i < ((List.range d.count).map fun i => some (Automaton.idAt i)).length := by
    simpa using hi
  unfold Automaton.indexOf
  rw [h.indexOrder_eq]
  simpa using hnodup.idxOf_getElem i hlt

/-- A label is the set that the only text for its edge lists. -/
theorem Describes.label?_of_mem_row (h : d.Describes f) (hc : d.Canonical)
    {i j : Nat} (hi : i < d.count) {g : SymbolSet} (hg : g ≠ ∅) (he : (j, g.text) ∈ d.row i) :
    f.table.label? (Automaton.idAt i) (Automaton.idAt j) = some g := by
  -- The row has no further transition to this target.
  have honly : ∀ e ∈ d.row i, e.1 = j → e.2 = g.text := by
    intro e hmem hej
    exact congrArg Prod.snd (eq_of_target_eq (hc.targets i hi) hmem he hej)
  have hcarries : ∀ x, f.table.Carries (Automaton.idAt i) (Automaton.idAt j) x ↔ x ∈ g := by
    intro x
    rw [h.carries]
    constructor
    · intro hx
      obtain ⟨i', _, hii, e, hmem, hej, hlists⟩ := hx
      rw [Automaton.idAt_inj] at hii hej
      subst hii
      rw [honly e hmem hej.symm] at hlists
      exact (SymbolSet.lists_of_read (SymbolSet.read_text hg)).1 hlists
    · intro hx
      exact ⟨i, hi, rfl, _, he, rfl, (SymbolSet.lists_of_read (SymbolSet.read_text hg)).2 hx⟩
  obtain ⟨x, hx⟩ := SymbolSet.exists_mem hg
  obtain ⟨g', hl, _⟩ := (hcarries x).2 hx
  rw [hl]
  refine congrArg some (SymbolSet.ext fun y => ?_)
  rw [← Table.carries_iff hl, hcarries]

/-- An edge is one of a row that lists a symbol of it. -/
theorem Describes.mem_row_of_label? (h : d.Describes f) (hf : f.WellFormed) (hc : d.Canonical)
    {i : Nat} {q : StateId} {g : SymbolSet}
    (hl : f.table.label? (Automaton.idAt i) q = some g) :
    ∃ j, q = Automaton.idAt j ∧ (j, g.text) ∈ d.row i := by
  obtain ⟨x, hx⟩ := SymbolSet.exists_mem (hf.label_nonempty _ _ _ hl)
  obtain ⟨i', hi, hii, e, he, rfl, _⟩ := (h.carries _ q x).1 ⟨g, hl, hx⟩
  rw [Automaton.idAt_inj] at hii
  subst hii
  obtain ⟨g', hg', htext⟩ := hc.texts i hi e he
  have hmem : (e.1, g'.text) ∈ d.row i := htext ▸ he
  rw [h.label?_of_mem_row hc hi hg' hmem] at hl
  injection hl with hl
  exact ⟨e.1, rfl, hl ▸ hmem⟩

/-- The transitions of a row are the edges that are read from them. -/
theorem Describes.definitionRow_eq (h : d.Describes f) (hf : f.WellFormed) (hr : d.Readable)
    (hc : d.Canonical) {i : Nat} (hi : i < d.count) :
    f.definitionRow (some (Automaton.idAt i)) = d.row i := by
  have hmem : ∀ e, e ∈ f.definitionRow (some (Automaton.idAt i)) ↔ e ∈ d.row i := by
    intro e
    rw [Automaton.mem_definitionRow]
    constructor
    · intro he
      obtain ⟨q, g, hl, rfl⟩ := he
      obtain ⟨j, rfl, he⟩ := h.mem_row_of_label? hf hc hl
      rw [h.indexOf_idAt (hr.target_lt i hi _ he)]
      exact he
    · intro he
      obtain ⟨g, hg, htext⟩ := hc.texts i hi e he
      have he' : (e.1, g.text) ∈ d.row i := htext ▸ he
      refine ⟨Automaton.idAt e.1, g, h.label?_of_mem_row hc hi hg he', ?_⟩
      rw [h.indexOf_idAt (hr.target_lt i hi e he), ← htext]
  refine eq_of_mem_iff ?_ (hc.targets i hi) hmem
  -- The edges come by id, which is the order of the indices.
  show ((f.table.row (Automaton.idAt i)).entries.map _).Pairwise _
  rw [List.pairwise_map]
  refine (f.table.row (Automaton.idAt i)).ascending.imp_of_mem fun {e e'} he he' hlt => ?_
  obtain ⟨j, hj, hej⟩ := h.mem_row_of_label? hf hc (OrderedMap.get?_eq_some_iff.2 he)
  obtain ⟨j', hj', hej'⟩ := h.mem_row_of_label? hf hc (OrderedMap.get?_eq_some_iff.2 he')
  rw [hj, hj'] at hlt
  show f.indexOf e.1 < f.indexOf e'.1
  rw [hj, hj', h.indexOf_idAt (hr.target_lt i hi _ hej),
    h.indexOf_idAt (hr.target_lt i hi _ hej')]
  exact Automaton.idAt_lt_idAt_iff.1 hlt

/-- **What is read from a definition of this form is written as that definition.** -/
theorem toDefinition_of_canonical (h : d.Describes f) (hf : f.WellFormed) (hr : d.Readable)
    (hc : d.Canonical) : f.toDefinition = d := by
  have horder := h.indexOrder_eq
  have hcount : f.toDefinition.count = d.count := by
    show f.indexOrder.length = d.count
    rw [horder, List.length_map, List.length_range]
  have hnames : f.toDefinition.names = d.names := by
    show f.indexOrder.map f.definitionName = d.names
    rw [horder, List.map_map, ← hc.names]
    conv => rhs; rw [← map_range_getD d.names defaultStateName]
    refine List.map_congr_left fun i hi => ?_
    have hlt : i < d.count := hc.names ▸ List.mem_range.1 hi
    exact Automaton.definitionName_of_get? (h.mem_states.2 ⟨i, hlt, rfl⟩)
      ((h.names _ _).2 ⟨i, hlt, rfl, rfl⟩)
  have haccept : f.toDefinition.accept = d.accept := by
    refine (Automaton.pairwise_accept_toDefinition hf).eq_of_mem_iff hc.accept fun i => ?_
    rw [Automaton.mem_accept_toDefinition]
    constructor
    · intro hi
      obtain ⟨q, hq, rfl⟩ := hi
      obtain ⟨i, hi, rfl⟩ := (h.accept q).1 hq
      rw [h.indexOf_idAt (hr.accept_lt i hi)]
      exact hi
    · intro hi
      exact ⟨Automaton.idAt i, (h.accept _).2 ⟨i, hi, rfl⟩,
        (h.indexOf_idAt (hr.accept_lt i hi)).symm⟩
  have htransitions : f.toDefinition.transitions = d.transitions := by
    show f.indexOrder.map f.definitionRow = d.transitions
    rw [horder, List.map_map, ← hc.rows]
    conv => rhs; rw [← map_range_getD d.transitions []]
    refine List.map_congr_left fun i hi => ?_
    exact h.definitionRow_eq hf hr hc (hc.rows ▸ List.mem_range.1 hi)
  have halphabet : f.toDefinition.alphabet = d.alphabet := by
    show f.alphabet.map SymbolSet.text = d.alphabet
    cases htext : d.alphabet with
    | none => rw [h.alphabet_none htext, Option.map_none]
    | some text =>
        obtain ⟨g, hempty, rfl⟩ := hc.alphabet text htext
        obtain ⟨g', hread, hfg⟩ := h.alphabet_some _ htext
        rw [hfg, Option.map_some]
        exact congrArg (some <| SymbolSet.text ·) (SymbolSet.withoutEmpty_of_read_text hempty hread)
  show Definition.mk f.toDefinition.count f.toDefinition.names f.toDefinition.accept
    f.toDefinition.transitions f.toDefinition.alphabet = d
  rw [hcount, hnames, haccept, htransitions, halphabet]

end Definition

/-! ## §4. What is written. -/

namespace Automaton

variable {a : Automaton}

/-- A row that is written has one transition for a target. -/
theorem nodup_definitionRow (ha : a.WellFormed) (s? : Option StateId) :
    ((a.definitionRow s?).map Prod.fst).Nodup := by
  cases s? with
  | none => exact List.nodup_nil
  | some s =>
      show (((a.table.row s).entries.map _).map Prod.fst).Nodup
      rw [List.map_map]
      have htarget : ∀ e ∈ (a.table.row s).entries, e.1 ∈ a.states := fun e he =>
        ha.target_mem s e.1 e.2 (OrderedMap.get?_eq_some_iff.2 he)
      rw [List.nodup_iff_pairwise_ne, List.pairwise_map]
      refine (a.table.row s).ascending.imp_of_mem fun {e e'} he he' hlt heq => ?_
      rw [indexOf_inj ha (htarget e he) (htarget e' he') heq] at hlt
      exact Int.lt_irrefl _ hlt

/-- What is written has the form of what is read, once its rows are sorted. -/
theorem canonical_tidied (ha : a.WellFormed) : a.toDefinition.tidied.Canonical where
  names := List.length_map _
  rows := by
    show ((a.indexOrder.map a.definitionRow).map _).length = a.indexOrder.length
    rw [List.length_map, List.length_map]
  accept := pairwise_accept_toDefinition ha
  targets i hi := by
    rw [Definition.row_tidied, row_toDefinition (List.getElem?_eq_getElem hi)]
    exact Definition.pairwise_byTarget_of_nodup (nodup_definitionRow ha _)
  texts i hi e he := by
    obtain ⟨s, _, _, t, g, hl, rfl⟩ :=
      (mem_row_toDefinition ha hi).1 (Definition.mem_row_tidied.1 he)
    exact ⟨g, ha.label_nonempty s t g hl, rfl⟩
  alphabet text htext := by
    obtain ⟨g, hg, rfl⟩ := Option.map_eq_some_iff.1 htext
    exact ⟨g, ha.alphabet_chars g hg, rfl⟩

/-- The order of the indices is that of the ids, but for the start. -/
theorem indexOf_le_indexOf_iff (ha : a.WellFormed) {t t' : StateId} (ht : t ∈ a.states)
    (ht' : t' ∈ a.states) (hlt : t < t') : a.indexOf t ≤ a.indexOf t' ↔ a.start ≠ some t' := by
  constructor
  · intro hle hstart
    rw [indexOf_start hstart, Nat.le_zero, ← indexOf_start hstart] at hle
    rw [indexOf_inj ha ht ht' hle] at hlt
    exact Int.lt_irrefl _ hlt
  · intro hstart'
    by_cases hstart : a.start = some t
    · rw [indexOf_start hstart]
      exact Nat.zero_le _
    · rw [indexOf_of_not_start ht hstart, indexOf_of_not_start ht' hstart']
      -- Before the greater of two further states there are no fewer.
      refine Nat.succ_le_succ (List.Sublist.length_le (List.monotone_filter_right _ ?_))
      intro u hu
      exact decide_eq_true (KeyOrder.trans (of_decide_eq_true hu) hlt)

/-- A row is in the order of the indices unless it leads to the start and to a state
with a lesser id. -/
theorem pairwise_definitionRow_iff (ha : a.WellFormed) (p : StateId) :
    (a.definitionRow (some p)).Pairwise (·.1 ≤ ·.1) ↔
      ∀ s t, a.start = some s → t < s → (a.table.label? p s).isSome →
        a.table.label? p t = none := by
  have htarget : ∀ {t g}, (t, g) ∈ (a.table.row p).entries → t ∈ a.states := fun he =>
    ha.target_mem p _ _ (OrderedMap.get?_eq_some_iff.2 he)
  show ((a.table.row p).entries.map fun e => (a.indexOf e.1, e.2.text)).Pairwise _ ↔ _
  rw [List.pairwise_map]
  constructor
  · intro hrow s t hstart hlt hs
    rw [Option.eq_none_iff_forall_ne_some]
    intro g' ht
    obtain ⟨g, hs⟩ := Option.isSome_iff_exists.1 hs
    have hmem := OrderedMap.get?_eq_some_iff.1 hs
    have hmem' := OrderedMap.get?_eq_some_iff.1 ht
    have hle := pairwise_apply (a.table.row p).ascending hrow hmem' hmem hlt
    exact (indexOf_le_indexOf_iff ha (htarget hmem') (htarget hmem) hlt).1 hle hstart
  · intro h
    refine (a.table.row p).ascending.imp_of_mem fun {e e'} he he' hlt => ?_
    refine (indexOf_le_indexOf_iff ha (htarget he) (htarget he') hlt).2 fun hstart => ?_
    have hs := OrderedMap.get?_eq_some_iff.2 he'
    have ht := OrderedMap.get?_eq_some_iff.2 he
    have hnone := h e'.1 e.1 hstart hlt (Option.isSome_iff_exists.2 ⟨_, hs⟩)
    exact absurd (ht.symm.trans hnone) nofun

/-- What is written is sorted unless some state has edges both to the start and to a
state with a lesser id. -/
theorem tidied_toDefinition_eq_self_iff (ha : a.WellFormed) :
    a.toDefinition.tidied = a.toDefinition ↔
      ∀ s, a.start = some s → ∀ p t, t < s → (a.table.label? p s).isSome →
        a.table.label? p t = none := by
  rw [Definition.tidied_eq_self_iff]
  constructor
  · intro h s hs p t hlt hps
    obtain ⟨g, hg⟩ := Option.isSome_iff_exists.1 hps
    have hrow := h _ (List.mem_map.2 ⟨_, (mem_indexOrder ha).2 (ha.origin_mem hg), rfl⟩)
    exact (pairwise_definitionRow_iff ha p).1 hrow s t hs hlt hps
  · intro h r hr
    obtain ⟨s?, _, rfl⟩ := List.mem_map.1 hr
    cases s? with
    | none => exact List.Pairwise.nil
    | some p => exact (pairwise_definitionRow_iff ha p).2 fun s t hs => h s hs p t

/-! ## §5. Writing again. -/

/-- **What is written, read and written again is sorted and otherwise the same**, and
is read as the same automaton.  It is the same altogether unless a state has edges both
to the start and to a state with a lesser id. -/
theorem toDefinition_read {supply : IdSupply} (h : InLineage a supply) :
    ∃ f, ofDefinition a.toDefinition = .ok f
      ∧ f.toDefinition = a.toDefinition.tidied
      ∧ ofDefinition f.toDefinition = .ok f
      ∧ (f.toDefinition = a.toDefinition ↔
          ∀ s, a.start = some s → ∀ p t, t < s → (a.table.label? p s).isSome →
            a.table.label? p t = none) := by
  have ha := h.suppliedBy.wellFormed
  have hreadable := readable_toDefinition ha
  have hsame := Definition.sameContent_tidied a.toDefinition
  obtain ⟨f, hread, hd⟩ := ofDefinition_ok hreadable
  have hf := wellFormed_ofDefinition hread
  have hwritten : f.toDefinition = a.toDefinition.tidied :=
    Definition.toDefinition_of_canonical (hsame.describes hd) hf (hsame.readable hreadable)
      (canonical_tidied ha)
  refine ⟨f, hread, hwritten, ?_, ?_⟩
  · rw [hwritten]
    exact hsame.ofDefinition_eq hreadable hread
  · rw [hwritten]
    exact tidied_toDefinition_eq_self_iff ha

theorem toDefinition_read_oneLetter :
    ∃ f, ofDefinition oneLetter.toDefinition = .ok f
      ∧ f.toDefinition = oneLetter.toDefinition ∧ ofDefinition f.toDefinition = .ok f := by
  obtain ⟨f, hread, hwritten, hagain, _⟩ := toDefinition_read inLineage_oneLetter
  exact ⟨f, hread, hwritten.trans (by decide +kernel), hagain⟩

/-- Two states, the second one the start, and edges from the first to both. -/
def startSecond : Automaton where
  start := some 2
  states := .ofList [1, 2]
  names := .ofList [(1, .str "p"), (2, .str "q")]
  accept := ∅
  table := .ofList [(1, .ofList [(1, .letterA), (2, .letterA)]), (2, ∅)]
  alphabet := none

theorem inLineage_startSecond : InLineage startSecond .afterOneLetter := by
  have hempty : InLineage .empty .fresh := .created (o := .nothing) rfl
  have hone := hempty.edited (e := .addState (.str "p")) rfl rfl
  have htwo := hone.edited (e := .addState (.str "q")) rfl rfl
  have hstart := htwo.edited (e := .setStart (.id 2)) rfl rfl
  have hloop := hstart.edited (e := .setTransition (.id 1) (.id 1) (.symbols .letterA)) rfl rfl
  exact hloop.edited (e := .setTransition (.id 1) (.id 2) (.symbols .letterA)) rfl rfl

/-- A row that leads to the start and to a state with a lesser id comes back in another
order. -/
theorem toDefinition_read_startSecond :
    InLineage startSecond .afterOneLetter
      ∧ startSecond.toDefinition.transitions = [[], [(1, "a"), (0, "a")]]
      ∧ ∃ f, ofDefinition startSecond.toDefinition = .ok f
        ∧ f.toDefinition.transitions = [[], [(0, "a"), (1, "a")]]
        ∧ f.toDefinition ≠ startSecond.toDefinition := by
  have hrows : startSecond.toDefinition.transitions = [[], [(1, "a"), (0, "a")]] := by
    decide +kernel
  have hagain : (ofDefinition startSecond.toDefinition).toOption.map (·.toDefinition.transitions)
      = some [[], [(0, "a"), (1, "a")]] := by
    decide +kernel
  refine ⟨inLineage_startSecond, hrows, ?_⟩
  cases hread : ofDefinition startSecond.toDefinition with
  | error e =>
      rw [hread] at hagain
      cases hagain
  | ok f =>
      rw [hread] at hagain
      have hsorted : f.toDefinition.transitions = [[], [(0, "a"), (1, "a")]] :=
        Option.some.inj hagain
      refine ⟨f, rfl, hsorted, fun e => ?_⟩
      rw [e, hrows] at hsorted
      exact absurd hsorted (by decide)

end Automaton

end FiniteAutomata
