/-
  FiniteAutomata.Proofs.Changes
  ─────────────────────────────
  **WHAT EACH CHANGE DOES.**

  A change that answers a changed automaton is one of a few operations on
  states that the automaton has.  The lemmas here name them, so that later
  proofs unfold no change:

      _eq_some      the operation behind a change that answers an automaton
      states_       the states after an operation
      label?_       the edges after an operation
-/
import FiniteAutomata.Automaton.Edit

namespace FiniteAutomata

/-! ## §1. Steps that succeed. -/

theorem bind_eq_ok {ε α β : Type} {x : Except ε α} {f : α → Except ε β} {r : β} :
    x >>= f = .ok r ↔ ∃ v, x = .ok v ∧ f v = .ok r := by
  cases x with
  | error e => simp [bind, Except.bind]
  | ok v => simp [bind, Except.bind]

theorem mapError_eq_ok {ε ε' α : Type} {x : Except ε α} {f : ε → ε'} {v : α} :
    x.mapError f = .ok v ↔ x = .ok v := by
  cases x with
  | error e => exact iff_of_false nofun nofun
  | ok v' =>
      show (Except.ok v' : Except ε' α) = .ok v ↔ _
      rw [Except.ok.injEq, Except.ok.injEq]

theorem toOption_eq_some {ε α : Type} {x : Except ε α} {v : α} :
    x.toOption = some v ↔ x = .ok v := by
  cases x with
  | error e => exact iff_of_false nofun nofun
  | ok v' =>
      show some v' = some v ↔ _
      rw [Option.some.injEq, Except.ok.injEq]

/-! ## §2. States and edges after an operation. -/

/-- The edges after the same change of every row. -/
theorem Table.label?_map (f : Row → Row) (hf : f ∅ = ∅) (t : Table) (o q : StateId) :
    Table.label? (t.map fun _ r => f r) o q = (f (t.row o)).get? q := by
  unfold label? row OrderedMap.getD
  rw [OrderedMap.get?_map]
  cases t.get? o with
  | none => simp [hf]
  | some r => rfl

namespace Automaton

variable {a b : Automaton}

theorem mem_states_addState {s q : StateId} {name : Json} :
    q ∈ (a.addState s name).states ↔ q = s ∨ q ∈ a.states :=
  OrderedSet.mem_insert

theorem label?_addState (s : StateId) (name : Json) (o t : StateId) :
    (a.addState s name).table.label? o t
      = if o = s then none else a.table.label? o t := by
  show Table.label? (a.table.insert s ∅) o t = _
  rw [Table.label?_insert]
  rfl

theorem mem_states_dropState {s q : StateId} :
    q ∈ (a.dropState s).states ↔ q ∈ a.states ∧ q ≠ s :=
  OrderedSet.mem_erase

theorem label?_dropState (s o t : StateId) :
    (a.dropState s).table.label? o t
      = if o = s ∨ t = s then none else a.table.label? o t := by
  show Table.label? (OrderedMap.map (fun _ r => OrderedMap.erase r s) (a.table.erase s)) o t = _
  rw [Table.label?_map (fun r => OrderedMap.erase r s) rfl, OrderedMap.get?_erase,
    Table.row_erase]
  by_cases ht : t = s
  · simp [ht]
  · by_cases ho : o = s
    · simp [ht, ho]
    · rw [if_neg ht, if_neg ho, if_neg (by simp [ho, ht])]
      rfl

@[simp] theorem states_restrictTo (keep : StateSet) : (a.restrictTo keep).states = keep := rfl

theorem label?_restrictTo (keep : StateSet) (o t : StateId) :
    (a.restrictTo keep).table.label? o t
      = if o ∈ keep ∧ t ∈ keep then a.table.label? o t else none := by
  show Table.label? (OrderedMap.map (fun _ r => OrderedMap.filter (fun t _ => t ∈ keep) r)
    (a.table.filter fun s _ => s ∈ keep)) o t = _
  rw [Table.label?_map (fun r => OrderedMap.filter (fun t _ => t ∈ keep) r) rfl,
    OrderedMap.get?_filter]
  unfold Table.label? Table.row OrderedMap.getD
  rw [OrderedMap.get?_filter]
  cases hr : a.table.get? o with
  | none => simp
  | some r =>
      by_cases ho : o ∈ keep
      · by_cases ht : t ∈ keep <;> cases hg : r.get? t <;> simp [ho, ht, Option.filter, hg]
      · simp [ho, Option.filter]

/-! ## §3. Changes of states. -/

theorem removeState?_eq_some {r : StateRef} (h : a.removeState? r = some b) :
    ∃ s ∈ a.states, b = a.dropState s := by
  unfold removeState? at h
  obtain ⟨s, hs, hb⟩ := Option.map_eq_some_iff.1 h
  exact ⟨s, (resolve?_eq_some_iff.1 hs).2, hb.symm⟩

theorem setStart?_eq_some {r : StateRef} (h : a.setStart? r = some b) :
    ∃ start, (∀ s, start = some s → s ∈ a.states) ∧ b = { a with start } := by
  unfold setStart? at h
  by_cases hr : r = .id 0
  · rw [if_pos hr] at h
    -- The reference `0` unsets the start, which is a change only if there is one.
    by_cases ha : a.start = none
    · simp [ha] at h
    · rw [if_neg ha] at h
      injection h with h
      exact ⟨none, by simp, h.symm⟩
  · rw [if_neg hr] at h
    cases hs : a.resolve? r with
    | none => simp [hs] at h
    | some s =>
        by_cases ha : a.start = some s
        · simp [hs, ha] at h
        · simp only [hs, if_neg ha, Option.some.injEq] at h
          have hmem : s ∈ a.states := (resolve?_eq_some_iff.1 hs).2
          refine ⟨some s, ?_, h.symm⟩
          intro q hq
          injection hq with hq
          exact hq ▸ hmem

theorem setAccept?_eq_some {r : StateRef} {accept : Bool}
    (h : a.setAccept? r accept = some b) :
    ∃ s, a.resolve? r = some s
      ∧ b = { a with
        accept := if accept then OrderedSet.insert s a.accept else a.accept.erase s } := by
  unfold setAccept? at h
  cases hs : a.resolve? r with
  | none => simp [hs] at h
  | some s =>
      by_cases ha : decide (s ∈ a.accept) = accept
      · simp [hs, ha] at h
      · simp only [hs, if_neg ha, Option.some.injEq] at h
        exact ⟨s, rfl, h.symm⟩

theorem setName?_eq_some {r : StateRef} {name : Json} (h : a.setName? r name = some b) :
    ∃ s, a.resolve? r = some s ∧ b = { a with names := a.names.insert s name } := by
  unfold setName? at h
  cases hs : a.resolve? r with
  | none => simp [hs] at h
  | some s =>
      simp only [hs] at h
      by_cases hn : (a.names.get? s).any (·.isEqual name) = true
      · simp [hn] at h
      · rw [if_neg hn] at h
        injection h with h
        exact ⟨s, rfl, h.symm⟩

/-! ## §4. Changes of edges. -/

theorem dropEdge?_eq_some {o t : StateId} (h : a.dropEdge? o t = some b) :
    (∃ g, a.table.label? o t = some g)
      ∧ b = a.withRow o ((a.table.row o).erase t) := by
  unfold dropEdge? at h
  cases hl : a.table.label? o t with
  | none => simp [hl] at h
  | some g =>
      simp only [hl, Option.some.injEq] at h
      exact ⟨⟨g, rfl⟩, h.symm⟩

theorem relabel?_eq_some {o t : StateId} {g : SymbolSet} (h : a.relabel? o t g = some b) :
    (g = ∅ ∧ a.dropEdge? o t = some b)
      ∨ (g ≠ ∅ ∧ a.table.label? o t ≠ some g
          ∧ b = a.withRow o ((a.table.row o).insert t g)) := by
  unfold relabel? at h
  by_cases hg : g = ∅
  · rw [if_pos (SymbolSet.isEmpty_iff.2 hg)] at h
    exact Or.inl ⟨hg, h⟩
  · have hempty : ¬ g.isEmpty = true := fun e => hg (SymbolSet.isEmpty_iff.1 e)
    rw [if_neg hempty] at h
    by_cases hl : a.table.label? o t = some g
    · simp [hl] at h
    · rw [if_neg hl] at h
      injection h with h
      exact Or.inr ⟨hg, hl, h.symm⟩

theorem setTransition?_eq_some {o t : StateRef} {label : Label}
    (h : a.setTransition? o t label = .ok (some b)) :
    ∃ p q g, a.resolve? o = some p ∧ a.resolve? t = some q ∧ label.read = .ok g
      ∧ a.relabel? p q g = some b := by
  unfold setTransition? at h
  cases ho : a.resolve? o with
  | none => simp [ho] at h
  | some p =>
      cases ht : a.resolve? t with
      | none => simp [ho, ht] at h
      | some q =>
          simp only [ho, ht] at h
          obtain ⟨g, hr, h⟩ := bind_eq_ok.1 h
          injection h with h
          exact ⟨p, q, g, rfl, rfl, hr, h⟩

theorem removeTransition?_eq_some {o t : StateRef} (h : a.removeTransition? o t = some b) :
    ∃ p q, a.resolve? o = some p ∧ a.resolve? t = some q ∧ a.dropEdge? p q = some b := by
  unfold removeTransition? at h
  cases ho : a.resolve? o with
  | none => simp [ho] at h
  | some p =>
      cases ht : a.resolve? t with
      | none => simp [ho, ht] at h
      | some q =>
          simp only [ho, ht] at h
          exact ⟨p, q, rfl, rfl, h⟩

theorem moveEdge?_eq_some {o x y : StateId} (h : a.moveEdge? o x y = some b) :
    x ≠ y ∧ ∃ g, a.table.label? o x = some g
      ∧ b = a.withRow o (((a.table.row o).erase x).insert y
          (g ∪ (a.table.label? o y).getD ∅)) := by
  unfold moveEdge? at h
  by_cases hxy : x = y
  · simp [hxy] at h
  · rw [if_neg hxy] at h
    cases hl : a.table.label? o x with
    | none => simp [hl] at h
    | some g =>
        simp only [hl, Option.some.injEq] at h
        exact ⟨hxy, g, rfl, h.symm⟩

theorem setTransitionTarget?_eq_some {o x y : StateRef}
    (h : a.setTransitionTarget? o x y = some b) :
    ∃ p q r, a.resolve? o = some p ∧ a.resolve? x = some q ∧ a.resolve? y = some r
      ∧ a.moveEdge? p q r = some b := by
  unfold setTransitionTarget? at h
  cases ho : a.resolve? o with
  | none => simp [ho] at h
  | some p =>
      cases hx : a.resolve? x with
      | none => simp [ho, hx] at h
      | some q =>
          cases hy : a.resolve? y with
          | none => simp [ho, hx, hy] at h
          | some r =>
              simp only [ho, hx, hy] at h
              exact ⟨p, q, r, rfl, rfl, rfl, h⟩

/-! ## §5. Changes of the alphabet. -/

/-- An alphabet that is read never has the empty symbol. -/
theorem readAlphabet_chars {label : Option Label} {alphabet : Option SymbolSet}
    (h : readAlphabet label = .ok alphabet) :
    ∀ g, alphabet = some g → Symbol.empty ∉ g := by
  intro g hg
  cases label with
  | none =>
      injection h with h
      rw [← h] at hg
      cases hg
  | some label =>
      obtain ⟨s, _, h⟩ := bind_eq_ok.1 h
      injection h with h
      rw [← h] at hg
      injection hg with hg
      rw [← hg]
      simp

theorem withAlphabet?_eq_some {alphabet : Option SymbolSet}
    (h : a.withAlphabet? alphabet = some b) : b = { a with alphabet } := by
  unfold withAlphabet? at h
  cases ha : a.alphabet with
  | none =>
      simp only [ha, Option.some.injEq] at h
      exact h.symm
  | some current =>
      simp only [ha] at h
      by_cases hc : current = alphabet.getD ∅
      · simp [hc] at h
      · rw [if_neg hc] at h
        injection h with h
        exact h.symm

theorem setAlphabet?_eq_some {label : Option Label}
    (h : a.setAlphabet? label = .ok (some b)) :
    ∃ alphabet, (∀ g, alphabet = some g → Symbol.empty ∉ g) ∧ b = { a with alphabet } := by
  obtain ⟨alphabet, hr, h⟩ := bind_eq_ok.1 h
  injection h with h
  exact ⟨alphabet, readAlphabet_chars hr, withAlphabet?_eq_some h⟩

theorem unsetAlphabet?_eq_some (h : a.unsetAlphabet? = some b) :
    b = { a with alphabet := none } := by
  unfold unsetAlphabet? at h
  cases ha : a.alphabet with
  | none => simp [ha] at h
  | some g =>
      simp only [ha, Option.some.injEq] at h
      exact h.symm

/-! ## §6. Trimming. -/

theorem trimFor?_eq_some {reachable generating : StateSet}
    (h : a.trimFor? reachable generating = some b) :
    b = a.restrictTo (a.kept reachable generating) := by
  unfold trimFor? at h
  by_cases hk : a.kept reachable generating = a.states
  · simp [hk] at h
  · simp only [if_neg hk, Option.some.injEq] at h
    exact h.symm

theorem mem_kept {reachable generating : StateSet} {s : StateId} :
    s ∈ a.kept reachable generating
      ↔ a.start = some s ∨ s ∈ reachable ∧ s ∈ generating := by
  unfold kept
  cases a.start with
  | none => simp
  | some p => simp [eq_comm]

/-- The start state is kept. -/
theorem start_mem_kept {reachable generating : StateSet} {s : StateId}
    (h : a.start = some s) : s ∈ a.kept reachable generating :=
  mem_kept.2 (Or.inl h)

/-! ## §7. Completion. -/

theorem relabel?_eq_withRow {o t : StateId} {g : SymbolSet} (h : a.relabel? o t g = some b) :
    ∃ r, b = a.withRow o r := by
  obtain ⟨_, hb⟩ | ⟨_, _, hb⟩ := relabel?_eq_some h
  · exact ⟨_, (dropEdge?_eq_some hb).2⟩
  · exact ⟨_, hb⟩

/-- Routing changes nothing but edges. -/
theorem route_eq (a : Automaton) (o sink : StateId) (g : SymbolSet) :
    ∃ table, a.route o sink g = { a with table } := by
  unfold route
  cases hb : a.relabel? o sink ((a.table.label? o sink).getD ∅ ∪ g) with
  | none => exact ⟨a.table, rfl⟩
  | some b =>
      obtain ⟨r, rfl⟩ := relabel?_eq_withRow hb
      exact ⟨_, rfl⟩

theorem routeAll_eq (a : Automaton) (sink : StateId) (missing : List (StateId × SymbolSet)) :
    ∃ table, a.routeAll sink missing = { a with table } := by
  induction missing generalizing a with
  | nil => exact ⟨a.table, rfl⟩
  | cons m missing ih =>
      obtain ⟨table, hm⟩ := route_eq a m.1 sink m.2
      -- The rest is routed in the automaton that the first routing leaves.
      obtain ⟨table', hrest⟩ := ih (a.route m.1 sink m.2)
      refine ⟨table', ?_⟩
      show (a.route m.1 sink m.2).routeAll sink missing = _
      rw [hrest, hm]

theorem states_routeAll (a : Automaton) (sink : StateId)
    (missing : List (StateId × SymbolSet)) :
    (a.routeAll sink missing).states = a.states := by
  obtain ⟨table, h⟩ := routeAll_eq a sink missing
  rw [h]

/-- Routing leaves every other edge as it was. -/
theorem label?_route_of_ne {o sink p q : StateId} (g : SymbolSet)
    (h : ¬ (p = o ∧ q = sink)) :
    (a.route o sink g).table.label? p q = a.table.label? p q := by
  unfold route
  cases hb : a.relabel? o sink ((a.table.label? o sink).getD ∅ ∪ g) with
  | none => rfl
  | some b =>
      show b.table.label? p q = _
      rw [label?_of_relabel? hb, if_neg h]

theorem mem_lacking {alphabet : SymbolSet} {m : StateId × SymbolSet} :
    m ∈ a.lacking alphabet ↔
      m.1 ∈ a.states ∧ m.2 = a.lackingAt alphabet m.1 ∧ m.2 ≠ ∅ := by
  unfold lacking
  rw [List.mem_filterMap]
  constructor
  · intro h
    obtain ⟨s, hs, hm⟩ := h
    by_cases he : (a.lackingAt alphabet s).isEmpty = true
    · simp [he] at hm
    · rw [if_neg he] at hm
      injection hm with hm
      subst hm
      exact ⟨hs, rfl, fun e => he (SymbolSet.isEmpty_iff.2 e)⟩
  · intro h
    obtain ⟨hs, hm, hne⟩ := h
    refine ⟨m.1, hs, ?_⟩
    have he : ¬ (a.lackingAt alphabet m.1).isEmpty = true :=
      fun e => hne (hm ▸ SymbolSet.isEmpty_iff.1 e)
    rw [if_neg he, ← hm]

theorem existingSink?_eq_some {generating : StateSet} {s : StateId}
    (h : a.existingSink? generating = some s) : s ∈ a.states ∧ s ∉ generating := by
  unfold existingSink? OrderedSet.min? at h
  exact OrderedSet.mem_sdiff.1 (List.mem_of_head? h)

theorem existingSink?_eq_none_iff {generating : StateSet} :
    a.existingSink? generating = none ↔ ∀ s ∈ a.states, s ∈ generating := by
  unfold existingSink? OrderedSet.min?
  rw [List.head?_eq_none_iff, List.eq_nil_iff_forall_not_mem]
  simp only [OrderedSet.mem_toList, OrderedSet.mem_sdiff, not_and, Classical.not_not]

/-- Where nothing is lacking nothing is done. -/
theorem complete?_of_lacking_eq_nil (h : a.lacking a.effectiveAlphabet = [])
    (supply : IdSupply) : a.complete? supply = (none, supply) := by
  unfold complete?
  dsimp only
  rw [h]

/-- Where something is lacking there is a result; the sink decides which. -/
theorem complete?_of_lacking_ne_nil (h : a.lacking a.effectiveAlphabet ≠ [])
    (supply : IdSupply) :
    a.complete? supply
      = (a.completeTowards a.effectiveAlphabet (a.existingSink? a.generatingStates)
          (a.lacking a.effectiveAlphabet) supply).map some id := by
  unfold complete?
  dsimp only
  cases hm : a.lacking a.effectiveAlphabet with
  | nil => exact absurd hm h
  | cons m missing => rfl

/-- The three things that completion can do. -/
theorem complete?_cases (a : Automaton) (supply : IdSupply) :
    a.complete? supply = (none, supply)
      ∨ (∃ sink ∈ a.states, sink ∉ a.generatingStates
          ∧ a.complete? supply
            = (some (a.routeAll sink (a.lacking a.effectiveAlphabet)), supply))
      ∨ a.complete? supply
          = (some ((a.addState supply.next rejectStateName).routeAll supply.next
              (a.lacking a.effectiveAlphabet ++ [(supply.next, a.effectiveAlphabet)])),
            supply.allocate.2) := by
  by_cases hm : a.lacking a.effectiveAlphabet = []
  · exact Or.inl (complete?_of_lacking_eq_nil hm supply)
  · rw [complete?_of_lacking_ne_nil hm]
    unfold completeTowards
    cases hs : a.existingSink? a.generatingStates with
    | none => exact Or.inr (Or.inr rfl)
    | some sink =>
        obtain ⟨hstate, hgen⟩ := existingSink?_eq_some hs
        exact Or.inr (Or.inl ⟨sink, hstate, hgen, rfl⟩)

end Automaton

end FiniteAutomata
