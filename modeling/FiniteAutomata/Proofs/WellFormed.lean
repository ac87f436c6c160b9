/-
  FiniteAutomata.Proofs.WellFormed
  ────────────────────────────────
  **EVERY EDIT KEEPS AN AUTOMATON WELL-FORMED.**

  `WellFormed` ties together six collections that edits change one by one: start,
  states, names, accepting states, rows, and the targets in the rows.  Each
  operation of `Proofs.Changes` keeps it, so every edit does.

  New states take their ids from a supply.  `SuppliedBy` says besides that all
  states lie below the ids that are left, so that a new state is none that is
  already there:

      SuppliedBy.edit       an edit keeps it, with the supply that it leaves
      SuppliedBy.mono       ids taken for other automata do no harm
-/
import FiniteAutomata.Proofs.Changes

namespace FiniteAutomata

namespace Automaton

variable {a b : Automaton}

/-! ## §1. Operations on states. -/

namespace WellFormed

theorem addState (h : a.WellFormed) {s : StateId} (hs : 0 < s) (name : Json) :
    (a.addState s name).WellFormed where
  positive q hq := by
    obtain rfl | hq := mem_states_addState.1 hq
    · exact hs
    · exact h.positive q hq
  start_mem q hq := mem_states_addState.2 (Or.inr (h.start_mem q hq))
  accept_subset q hq := mem_states_addState.2 (Or.inr (h.accept_subset q hq))
  keys_names := by
    show OrderedMap.keys (a.names.insert s name) = OrderedSet.insert s a.states
    rw [OrderedMap.keys_insert, h.keys_names]
  keys_table := by
    show OrderedMap.keys (a.table.insert s ∅) = OrderedSet.insert s a.states
    rw [OrderedMap.keys_insert, h.keys_table]
  target_mem o t g hl := by
    rw [label?_addState] at hl
    by_cases ho : o = s
    · simp [ho] at hl
    · rw [if_neg ho] at hl
      exact mem_states_addState.2 (Or.inr (h.target_mem o t g hl))
  label_nonempty o t g hl := by
    rw [label?_addState] at hl
    by_cases ho : o = s
    · simp [ho] at hl
    · rw [if_neg ho] at hl
      exact h.label_nonempty o t g hl
  alphabet_chars := h.alphabet_chars

theorem dropState (h : a.WellFormed) (s : StateId) : (a.dropState s).WellFormed where
  positive q hq := h.positive q (mem_states_dropState.1 hq).1
  start_mem q hq := by
    have hstart : (if a.start = some s then none else a.start) = some q := hq
    -- A start that is left is not the state that goes.
    by_cases ha : a.start = some s
    · simp [ha] at hstart
    · rw [if_neg ha] at hstart
      refine mem_states_dropState.2 ⟨h.start_mem q hstart, ?_⟩
      intro e
      exact ha (e ▸ hstart)
  accept_subset q hq := by
    obtain ⟨hq, hne⟩ := OrderedSet.mem_erase.1 hq
    exact mem_states_dropState.2 ⟨h.accept_subset q hq, hne⟩
  keys_names := by
    show OrderedMap.keys (a.names.erase s) = a.states.erase s
    rw [OrderedMap.keys_erase, h.keys_names]
  keys_table := by
    show OrderedMap.keys (OrderedMap.map _ (a.table.erase s)) = a.states.erase s
    rw [OrderedMap.keys_map, OrderedMap.keys_erase, h.keys_table]
  target_mem o t g hl := by
    rw [label?_dropState] at hl
    by_cases hst : o = s ∨ t = s
    · simp [hst] at hl
    · rw [if_neg hst] at hl
      refine mem_states_dropState.2 ⟨h.target_mem o t g hl, ?_⟩
      intro e
      exact hst (Or.inr e)
  label_nonempty o t g hl := by
    rw [label?_dropState] at hl
    by_cases hst : o = s ∨ t = s
    · simp [hst] at hl
    · rw [if_neg hst] at hl
      exact h.label_nonempty o t g hl
  alphabet_chars := h.alphabet_chars

/-- Of the states some are left, the start among them. -/
theorem restrictTo (h : a.WellFormed) {keep : StateSet} (hkeep : ∀ s ∈ keep, s ∈ a.states)
    (hstart : ∀ s, a.start = some s → s ∈ keep) : (a.restrictTo keep).WellFormed where
  positive q hq := h.positive q (hkeep q hq)
  start_mem := hstart
  accept_subset q hq := (OrderedSet.mem_inter.1 hq).2
  keys_names := by
    show OrderedMap.keys (a.names.filter fun s _ => s ∈ keep) = keep
    rw [OrderedMap.keys_filter, h.keys_names]
    exact OrderedSet.inter_eq_right hkeep
  keys_table := by
    show OrderedMap.keys (OrderedMap.map _ (a.table.filter fun s _ => s ∈ keep)) = keep
    rw [OrderedMap.keys_map, OrderedMap.keys_filter, h.keys_table]
    exact OrderedSet.inter_eq_right hkeep
  target_mem o t g hl := by
    rw [label?_restrictTo] at hl
    by_cases hot : o ∈ keep ∧ t ∈ keep
    · exact hot.2
    · simp [hot] at hl
  label_nonempty o t g hl := by
    rw [label?_restrictTo] at hl
    by_cases hot : o ∈ keep ∧ t ∈ keep
    · rw [if_pos hot] at hl
      exact h.label_nonempty o t g hl
    · simp [hot] at hl
  alphabet_chars := h.alphabet_chars

theorem withStart (h : a.WellFormed) {start : Option StateId}
    (hs : ∀ s, start = some s → s ∈ a.states) :
    ({ a with start } : Automaton).WellFormed :=
  { h with start_mem := hs }

theorem withAccept (h : a.WellFormed) {set : StateSet} (hs : ∀ s ∈ set, s ∈ a.states) :
    ({ a with accept := set } : Automaton).WellFormed :=
  { h with accept_subset := hs }

theorem withAlphabet (h : a.WellFormed) {alphabet : Option SymbolSet}
    (hg : ∀ g, alphabet = some g → Symbol.empty ∉ g) :
    ({ a with alphabet } : Automaton).WellFormed :=
  { h with alphabet_chars := hg }

/-- A name for a state that is there already takes the place of its name. -/
theorem withName (h : a.WellFormed) {s : StateId} (hs : s ∈ a.states) (name : Json) :
    ({ a with names := a.names.insert s name } : Automaton).WellFormed :=
  { h with
    keys_names := (OrderedMap.keys_insert_of_mem (h.keys_names ▸ hs) name).trans h.keys_names }

/-! ## §2. Operations on edges. -/

theorem withRow (h : a.WellFormed) {o : StateId} (ho : o ∈ a.states) {r : Row}
    (hr : ∀ t g, r.get? t = some g → t ∈ a.states ∧ g ≠ ∅) :
    (a.withRow o r).WellFormed where
  positive := h.positive
  start_mem := h.start_mem
  accept_subset := h.accept_subset
  keys_names := h.keys_names
  keys_table := (OrderedMap.keys_insert_of_mem (h.keys_table ▸ ho) r).trans h.keys_table
  target_mem p t g hl := by
    rw [label?_withRow] at hl
    by_cases hp : p = o
    · rw [if_pos hp] at hl
      exact (hr t g hl).1
    · rw [if_neg hp] at hl
      exact h.target_mem p t g hl
  label_nonempty p t g hl := by
    rw [label?_withRow] at hl
    by_cases hp : p = o
    · rw [if_pos hp] at hl
      exact (hr t g hl).2
    · rw [if_neg hp] at hl
      exact h.label_nonempty p t g hl
  alphabet_chars := h.alphabet_chars

/-- The states are what has a name. -/
theorem mem_states_iff_name (h : a.WellFormed) {s : StateId} :
    s ∈ a.states ↔ ∃ n, a.names.get? s = some n := by
  rw [← h.keys_names]
  exact OrderedMap.mem_keys

theorem get?_names_eq_none (h : a.WellFormed) {s : StateId} (hs : s ∉ a.states) :
    a.names.get? s = none := by
  rw [OrderedMap.get?_eq_none_iff, h.keys_names]
  exact hs

/-- An entry of a row is an edge, so it leads to a state and matches something. -/
theorem row_entry (h : a.WellFormed) {o t : StateId} {g : SymbolSet}
    (hg : (a.table.row o).get? t = some g) : t ∈ a.states ∧ g ≠ ∅ :=
  ⟨h.target_mem o t g hg, h.label_nonempty o t g hg⟩

/-- A state that is not there has no edges. -/
theorem label?_eq_none (h : a.WellFormed) {o : StateId} (ho : o ∉ a.states)
    (t : StateId) : a.table.label? o t = none := by
  have hnone : a.table.get? o = none := by
    rw [OrderedMap.get?_eq_none_iff, h.keys_table]
    exact ho
  unfold Table.label? Table.row OrderedMap.getD
  rw [hnone]
  rfl

theorem origin_mem (h : a.WellFormed) {o t : StateId} {g : SymbolSet}
    (hl : a.table.label? o t = some g) : o ∈ a.states :=
  Classical.byContradiction fun ho => by simp [h.label?_eq_none ho] at hl

/-- The edge between two ids is that of the table, also where no states have them. -/
theorem label?_id (h : a.WellFormed) (o t : StateId) :
    a.label? (.id o) (.id t) = a.table.label? o t := by
  by_cases ho : o ∈ a.states
  · by_cases ht : t ∈ a.states
    · simp [label?, resolve?, ho, ht]
    · cases hl : a.table.label? o t with
      | none => simp [label?, resolve?, ho, ht]
      | some g => exact absurd (h.target_mem o t g hl) ht
  · simp [label?, resolve?, ho, h.label?_eq_none ho]

theorem isAccept_id (h : a.WellFormed) (s : StateId) :
    a.isAccept (.id s) = true ↔ s ∈ a.accept := by
  by_cases hs : s ∈ a.states
  · simp [isAccept, namesStateIn, resolve?, hs]
  · have hnot : s ∉ a.accept := fun hacc => hs (h.accept_subset s hacc)
    simp [isAccept, namesStateIn, resolve?, hs, hnot]

theorem target_mem_of_edge (h : a.WellFormed) {e : Edge} (he : e ∈ a.table.edges) :
    e.target ∈ a.states := by
  obtain ⟨g, hl⟩ := Table.mem_edges.1 he
  exact h.target_mem e.origin e.target g hl

theorem mem_states_of_linked (h : a.WellFormed) {p q : StateId} (hp : p ∈ a.states)
    (hl : Linked a.table.edges p q) : q ∈ a.states := by
  cases hl with
  | refl => exact hp
  | tail e _ he heq => exact heq ▸ h.target_mem_of_edge he

theorem mem_states_of_reachable (h : a.WellFormed) {s : StateId}
    (hs : s ∈ a.reachableStates) : s ∈ a.states := by
  obtain ⟨p, hp, hl⟩ := mem_reachableStates.1 hs
  exact h.mem_states_of_linked (h.start_mem p hp) hl

/-- Trimming keeps nothing but states. -/
theorem mem_states_of_kept (h : a.WellFormed) {generating : StateSet} {s : StateId}
    (hs : s ∈ a.kept a.reachableStates generating) : s ∈ a.states := by
  obtain hstart | ⟨hreach, _⟩ := mem_kept.1 hs
  · exact h.start_mem s hstart
  · exact h.mem_states_of_reachable hreach

theorem dropEdge (h : a.WellFormed) {o t : StateId} (ho : o ∈ a.states)
    (hb : a.dropEdge? o t = some b) : b.WellFormed := by
  obtain ⟨_, rfl⟩ := dropEdge?_eq_some hb
  apply h.withRow ho
  intro q g hg
  rw [OrderedMap.get?_erase] at hg
  by_cases hq : q = t
  · simp [hq] at hg
  · rw [if_neg hq] at hg
    exact h.row_entry hg

theorem relabel (h : a.WellFormed) {o t : StateId} {g : SymbolSet} (ho : o ∈ a.states)
    (ht : t ∈ a.states) (hb : a.relabel? o t g = some b) : b.WellFormed := by
  obtain ⟨_, hb⟩ | ⟨hne, _, rfl⟩ := relabel?_eq_some hb
  · exact h.dropEdge ho hb
  · apply h.withRow ho
    intro q g' hg
    rw [OrderedMap.get?_insert] at hg
    by_cases hq : q = t
    · rw [if_pos hq] at hg
      injection hg with hg
      exact ⟨hq ▸ ht, hg ▸ hne⟩
    · rw [if_neg hq] at hg
      exact h.row_entry hg

theorem moveEdge (h : a.WellFormed) {o x y : StateId} (ho : o ∈ a.states)
    (hy : y ∈ a.states) (hb : a.moveEdge? o x y = some b) : b.WellFormed := by
  obtain ⟨_, g, hl, rfl⟩ := moveEdge?_eq_some hb
  apply h.withRow ho
  intro q g' hg
  rw [OrderedMap.get?_insert, OrderedMap.get?_erase] at hg
  by_cases hq : q = y
  · rw [if_pos hq] at hg
    injection hg with hg
    -- The edge that moves matches something, and the merged one no less.
    obtain ⟨z, hz⟩ := SymbolSet.exists_mem (h.label_nonempty o x g hl)
    have hmem : z ∈ g' := hg ▸ SymbolSet.mem_union.2 (Or.inl hz)
    exact ⟨hq ▸ hy, SymbolSet.ne_nothing_of_mem hmem⟩
  · rw [if_neg hq] at hg
    by_cases hqx : q = x
    · simp [hqx] at hg
    · rw [if_neg hqx] at hg
      exact h.row_entry hg

end WellFormed

/-! ## §3. Completion. -/

theorem WellFormed.route (h : a.WellFormed) {o sink : StateId} {g : SymbolSet}
    (ho : o ∈ a.states) (hs : sink ∈ a.states) : (a.route o sink g).WellFormed := by
  unfold Automaton.route
  cases hb : a.relabel? o sink ((a.table.label? o sink).getD ∅ ∪ g) with
  | none => exact h
  | some b => exact h.relabel ho hs hb

theorem WellFormed.routeAll (h : a.WellFormed) {sink : StateId} (hs : sink ∈ a.states)
    {missing : List (StateId × SymbolSet)} (hm : ∀ m ∈ missing, m.1 ∈ a.states) :
    (a.routeAll sink missing).WellFormed := by
  induction missing generalizing a with
  | nil => exact h
  | cons m missing ih =>
      -- Routing adds no state, so the rest can be routed too.
      have hstates : (a.route m.1 sink m.2).states = a.states :=
        states_routeAll a sink [m]
      have hroute : (a.route m.1 sink m.2).WellFormed := h.route (hm m (by simp)) hs
      apply ih hroute
      · rw [hstates]
        exact hs
      · intro n hn
        rw [hstates]
        exact hm n (List.mem_cons_of_mem m hn)

/-! ## §4. Supplies. -/

/-- A well-formed automaton all of whose states lie below the ids that are left. -/
structure SuppliedBy (a : Automaton) (supply : IdSupply) : Prop where
  wellFormed : a.WellFormed
  below : ∀ s ∈ a.states, s < supply.next

namespace SuppliedBy

variable {supply supply' : IdSupply}

/-- Ids that are taken for other automata do no harm. -/
theorem mono (h : a.SuppliedBy supply) (hle : supply.next ≤ supply'.next) :
    a.SuppliedBy supply' :=
  ⟨h.wellFormed, fun s hs => Int.lt_of_lt_of_le (h.below s hs) hle⟩

/-- An automaton with no other states. -/
theorem of_states (h : a.SuppliedBy supply) (hb : b.WellFormed)
    (hs : ∀ s ∈ b.states, s ∈ a.states) : b.SuppliedBy supply :=
  ⟨hb, fun s hsb => h.below s (hs s hsb)⟩

theorem next_not_mem (h : a.SuppliedBy supply) : supply.next ∉ a.states :=
  fun hs => Int.lt_irrefl _ (h.below _ hs)

theorem addState (h : a.SuppliedBy supply) (name : Json) :
    (a.addState supply.next name).SuppliedBy supply.allocate.2 where
  wellFormed := h.wellFormed.addState (Int.lt_of_lt_of_le (by decide) supply.positive) name
  below s hs := by
    have hnext : supply.allocate.2.next = supply.next + 1 := rfl
    rw [hnext]
    obtain rfl | hs := mem_states_addState.1 hs
    · exact Int.lt_add_one_of_le (Int.le_refl _)
    · exact Int.lt_trans (h.below s hs) (Int.lt_add_one_of_le (Int.le_refl _))

theorem routeAll (h : a.SuppliedBy supply) {sink : StateId} (hs : sink ∈ a.states)
    {missing : List (StateId × SymbolSet)} (hm : ∀ m ∈ missing, m.1 ∈ a.states) :
    (a.routeAll sink missing).SuppliedBy supply := by
  apply h.of_states (h.wellFormed.routeAll hs hm)
  intro s hs'
  rw [states_routeAll] at hs'
  exact hs'

theorem complete? (h : a.SuppliedBy supply)
    (hb : a.complete? supply = (some b, supply')) : b.SuppliedBy supply' := by
  have hmissing : ∀ m ∈ a.lacking a.effectiveAlphabet, m.1 ∈ a.states :=
    fun m hm => (mem_lacking.1 hm).1
  obtain hc | ⟨sink, hs, _, hc⟩ | hc := complete?_cases a supply
  · rw [hc] at hb
    cases hb
  · rw [hc] at hb
    cases hb
    exact h.routeAll hs hmissing
  · rw [hc] at hb
    cases hb
    -- The new sink lacks every symbol, so it is among the origins.
    have hnew : supply.next ∈ (a.addState supply.next rejectStateName).states :=
      mem_states_addState.2 (Or.inl rfl)
    apply (h.addState rejectStateName).routeAll hnew
    intro m hm
    obtain hm | hm := List.mem_append.1 hm
    · exact mem_states_addState.2 (Or.inr (hmissing m hm))
    · rw [List.mem_singleton.1 hm]
      exact hnew

end SuppliedBy

/-! ## §5. Edits. -/

theorem complete?_next_le (a : Automaton) (supply : IdSupply) :
    supply.next ≤ (a.complete? supply).2.next := by
  have hsame : ∀ r, a.complete? supply = (r, supply) →
      supply.next ≤ (a.complete? supply).2.next :=
    fun r hc => Int.le_of_eq (congrArg (·.2.next) hc).symm
  obtain hc | ⟨_, _, _, hc⟩ | hc := complete?_cases a supply
  · exact hsame _ hc
  · exact hsame _ hc
  · rw [hc]
    exact Int.le_of_lt (Int.lt_add_one_of_le (Int.le_refl _))

theorem WellFormed.setAccept (h : a.WellFormed) {r : StateRef} {accept : Bool}
    (hb : a.setAccept? r accept = some b) :
    b.WellFormed ∧ ∀ s ∈ b.states, s ∈ a.states := by
  obtain ⟨s, hs, rfl⟩ := setAccept?_eq_some hb
  refine ⟨h.withAccept ?_, fun _ hq => hq⟩
  intro q hq
  cases accept with
  | true =>
      obtain rfl | hq := OrderedSet.mem_insert.1 hq
      · exact (resolve?_eq_some_iff.1 hs).2
      · exact h.accept_subset q hq
  | false => exact h.accept_subset q (OrderedSet.mem_erase.1 hq).1

/-- An edit without ids answers a well-formed automaton with no other states. -/
theorem WellFormed.edit (h : a.WellFormed) {supply : IdSupply} {e : Edit} {d : Edited}
    (he : a.edit supply e = .ok d) (hadd : ∀ name, e ≠ .addState name)
    (hcomp : e ≠ .complete) :
    d.supply = supply
      ∧ ∀ b, d.automaton = some b → b.WellFormed ∧ ∀ s ∈ b.states, s ∈ a.states := by
  cases e with
  | addState name => exact absurd rfl (hadd name)
  | complete => exact absurd rfl hcomp
  | removeState r =>
      cases he
      refine ⟨rfl, fun b hb => ?_⟩
      obtain ⟨s, _, rfl⟩ := removeState?_eq_some hb
      exact ⟨h.dropState s, fun q hq => (mem_states_dropState.1 hq).1⟩
  | setTransition o t label =>
      obtain ⟨result, hr, he⟩ := bind_eq_ok.1 he
      cases he
      refine ⟨rfl, fun b hb => ?_⟩
      subst hb
      obtain ⟨p, q, g, hp, hq, _, hb⟩ := setTransition?_eq_some (mapError_eq_ok.1 hr)
      have hps : p ∈ a.states := (resolve?_eq_some_iff.1 hp).2
      have hqs : q ∈ a.states := (resolve?_eq_some_iff.1 hq).2
      refine ⟨h.relabel hps hqs hb, ?_⟩
      obtain ⟨r, rfl⟩ := relabel?_eq_withRow hb
      exact fun _ hs => hs
  | setTransitionTarget o x y =>
      cases he
      refine ⟨rfl, fun b hb => ?_⟩
      obtain ⟨p, q, r, hp, _, hr, hb⟩ := setTransitionTarget?_eq_some hb
      refine ⟨h.moveEdge (resolve?_eq_some_iff.1 hp).2 (resolve?_eq_some_iff.1 hr).2 hb, ?_⟩
      obtain ⟨_, _, _, rfl⟩ := moveEdge?_eq_some hb
      exact fun _ hs => hs
  | removeTransition o t =>
      cases he
      refine ⟨rfl, fun b hb => ?_⟩
      obtain ⟨p, q, hp, _, hb⟩ := removeTransition?_eq_some hb
      refine ⟨h.dropEdge (resolve?_eq_some_iff.1 hp).2 hb, ?_⟩
      obtain ⟨_, rfl⟩ := dropEdge?_eq_some hb
      exact fun _ hs => hs
  | setStart r =>
      cases he
      refine ⟨rfl, fun b hb => ?_⟩
      obtain ⟨start, hs, rfl⟩ := setStart?_eq_some hb
      exact ⟨h.withStart hs, fun _ hq => hq⟩
  | setAccept r accept =>
      cases he
      exact ⟨rfl, fun b hb => h.setAccept hb⟩
  | toggleAccept r =>
      cases he
      exact ⟨rfl, fun b hb => h.setAccept hb⟩
  | setName r name =>
      cases he
      refine ⟨rfl, fun b hb => ?_⟩
      obtain ⟨s, hs, rfl⟩ := setName?_eq_some hb
      exact ⟨h.withName (resolve?_eq_some_iff.1 hs).2 name, fun _ hq => hq⟩
  | setAlphabet label =>
      obtain ⟨result, hr, he⟩ := bind_eq_ok.1 he
      cases he
      refine ⟨rfl, fun b hb => ?_⟩
      subst hb
      obtain ⟨alphabet, hg, rfl⟩ := setAlphabet?_eq_some (mapError_eq_ok.1 hr)
      exact ⟨h.withAlphabet hg, fun _ hq => hq⟩
  | unsetAlphabet =>
      cases he
      refine ⟨rfl, fun b hb => ?_⟩
      have hb' := unsetAlphabet?_eq_some hb
      subst hb'
      exact ⟨h.withAlphabet (by simp), fun _ hq => hq⟩
  | trim =>
      cases he
      refine ⟨rfl, fun b hb => ?_⟩
      have hb' := trimFor?_eq_some hb
      subst hb'
      have hkeep : ∀ s ∈ a.kept a.reachableStates a.generatingStates, s ∈ a.states :=
        fun s hs => h.mem_states_of_kept hs
      exact ⟨h.restrictTo hkeep fun s hs => start_mem_kept hs, hkeep⟩

/-- **Every edit keeps an automaton well-formed** and all states below the ids
that it leaves; and it gives no id back. -/
theorem SuppliedBy.edit {supply : IdSupply} (h : a.SuppliedBy supply) {e : Edit}
    {d : Edited} (he : a.edit supply e = .ok d) :
    supply.next ≤ d.supply.next
      ∧ ∀ b, d.automaton = some b → b.SuppliedBy d.supply := by
  -- Only two edits take an id; the others leave the supply and add no state.
  have hplain : (∀ name, e ≠ .addState name) → e ≠ .complete →
      supply.next ≤ d.supply.next
        ∧ ∀ b, d.automaton = some b → b.SuppliedBy d.supply := by
    intro hadd hcomp
    obtain ⟨hsupply, hb⟩ := h.wellFormed.edit he hadd hcomp
    rw [hsupply]
    exact ⟨Int.le_refl _, fun b hbs => h.of_states (hb b hbs).1 (hb b hbs).2⟩
  cases e with
  | addState name =>
      cases he
      refine ⟨Int.le_of_lt (Int.lt_add_one_of_le (Int.le_refl _)), fun b hb => ?_⟩
      cases hb
      exact h.addState name
  | complete =>
      cases he
      refine ⟨complete?_next_le a supply, fun b hb => ?_⟩
      exact h.complete? (Prod.ext hb rfl)
  | _ => exact hplain (fun _ => by simp) (by simp)

end Automaton

end FiniteAutomata
