/-
  FiniteAutomata.Proofs.Coverage
  ──────────────────────────────
  **COMPLETION COVERS THE ALPHABET AND DOES LITTLE ELSE.**

  A state covers a symbol if some edge that leaves it has the symbol.  Completion
  adds exactly the symbols that are not covered, and all of them on edges into one
  state, the sink: a state that is not generating, or a new one if there is none.
  `CompletedTo` says all that it does, and whatever it guarantees follows from
  that, without another look at how the result is built:

      complete?_spec            nothing is to be done, or an automaton completed so
      CompletedTo.covers        every state covers the alphabet
      CompletedTo.generatingStates_eq, CompletedTo.effectiveAlphabet_eq,
      CompletedTo.isDeterministic_eq
                                what it leaves as it is

  Main statement: `complete_guarantees`.
-/
import FiniteAutomata.Proofs.Completion
import FiniteAutomata.Proofs.Extensionality
import FiniteAutomata.Proofs.Survival

namespace FiniteAutomata

/-! ## §1. Symbols on edges. -/

/-- A table is deterministic iff no edge reads nothing and each symbol leads from an
origin to one target at most. -/
theorem Table.isDeterministic_iff_carries {t : Table} :
    t.isDeterministic = true
      ↔ (∀ o q, ¬ t.Carries o q .empty)
        ∧ ∀ o p q x, t.Carries o p x → t.Carries o q x → p = q := by
  rw [isDeterministic_iff]
  constructor
  · intro h
    obtain ⟨hempty, hapart⟩ := h
    constructor
    · intro o q hq
      obtain ⟨g, hl, hg⟩ := hq
      exact hempty o q g hl hg
    · intro o p q x hp hq
      obtain ⟨g, hl, hg⟩ := hp
      obtain ⟨g', hl', hg'⟩ := hq
      exact Classical.byContradiction fun hne => hapart o p q g g' hne hl hl' x hg hg'
  · intro h
    obtain ⟨hempty, hunique⟩ := h
    constructor
    · exact fun o q g hl hg => hempty o q ⟨g, hl, hg⟩
    · exact fun o p q g g' hne hl hl' x hg hg' => hne (hunique o p q x ⟨g, hl, hg⟩ ⟨g', hl', hg'⟩)

namespace Automaton

variable {a c : Automaton} {sink : StateId} {supply : IdSupply}

/-- Every state covers the symbols of an alphabet. -/
def Covers (a : Automaton) (alphabet : SymbolSet) : Prop :=
  ∀ s ∈ a.states, ∀ x ∈ alphabet, ∃ q, a.table.Carries s q x

theorem mem_minimalAlphabet_iff_carries {x : Symbol} :
    x ∈ a.minimalAlphabet ↔ x ≠ .empty ∧ ∃ p q, a.table.Carries p q x :=
  mem_minimalAlphabet

/-- Completion never routes the empty symbol. -/
theorem WellFormed.empty_not_mem_effectiveAlphabet (h : a.WellFormed) :
    Symbol.empty ∉ a.effectiveAlphabet := by
  unfold effectiveAlphabet
  cases hg : a.alphabet with
  | none => exact fun hmem => (mem_minimalAlphabet.1 hmem).1 rfl
  | some g => exact h.alphabet_chars g hg

theorem mem_lackingAt {alphabet : SymbolSet} {s : StateId} {x : Symbol} :
    x ∈ a.lackingAt alphabet s ↔ x ∈ alphabet ∧ ∀ q, ¬ a.table.Carries s q x := by
  show x ∈ alphabet \ a.table.outgoing s ↔ _
  rw [SymbolSet.mem_sdiff, Table.mem_outgoing, not_exists]

/-- What completion routes from a state is what the state does not cover. -/
theorem exists_mem_lacking {alphabet : SymbolSet} {s : StateId} {x : Symbol} :
    (∃ g, (s, g) ∈ a.lacking alphabet ∧ x ∈ g)
      ↔ s ∈ a.states ∧ x ∈ alphabet ∧ ∀ q, ¬ a.table.Carries s q x := by
  rw [← mem_lackingAt]
  constructor
  · intro h
    obtain ⟨g, hg, hx⟩ := h
    obtain ⟨hs, hlacks, _⟩ := mem_lacking.1 hg
    have hlacks : g = a.lackingAt alphabet s := hlacks
    exact ⟨hs, hlacks ▸ hx⟩
  · intro h
    obtain ⟨hs, hx⟩ := h
    exact ⟨_, mem_lacking.2 ⟨hs, rfl, SymbolSet.ne_nothing_of_mem hx⟩, hx⟩

/-- A state that is not there covers nothing. -/
theorem WellFormed.not_carries (h : a.WellFormed) {s : StateId} (hs : s ∉ a.states)
    (q : StateId) (x : Symbol) : ¬ a.table.Carries s q x :=
  Table.not_carries (h.label?_eq_none hs q) x

/-- With a new state, what completion routes is what the old states and the new one do
not cover. -/
theorem exists_mem_lacking_append (h : a.WellFormed) (hs : sink ∉ a.states)
    {alphabet : SymbolSet} {s : StateId} {x : Symbol} :
    (∃ g, (s, g) ∈ a.lacking alphabet ++ [(sink, alphabet)] ∧ x ∈ g)
      ↔ (s = sink ∨ s ∈ a.states) ∧ x ∈ alphabet ∧ ∀ q, ¬ a.table.Carries s q x := by
  simp only [List.mem_append, List.mem_singleton, or_and_right, exists_or,
    exists_mem_lacking, Prod.mk.injEq]
  constructor
  · intro hx
    obtain hold | ⟨g, ⟨rfl, rfl⟩, hx⟩ := hx
    · exact Or.inr hold
    · exact Or.inl ⟨rfl, hx, fun q => h.not_carries hs q x⟩
  · intro hx
    obtain ⟨rfl, hx, _⟩ | hold := hx
    · exact Or.inr ⟨_, ⟨rfl, rfl⟩, hx⟩
    · exact Or.inl hold

theorem lacking_eq_nil_iff {alphabet : SymbolSet} :
    a.lacking alphabet = [] ↔ a.Covers alphabet := by
  rw [List.eq_nil_iff_forall_not_mem]
  constructor
  · intro h s hs x hx
    refine Classical.byContradiction fun hnone => ?_
    obtain ⟨g, hg, _⟩ := exists_mem_lacking.2 ⟨hs, hx, not_exists.1 hnone⟩
    exact h _ hg
  · intro h m hm
    obtain ⟨hs, hg, hne⟩ := mem_lacking.1 hm
    obtain ⟨x, hx⟩ := SymbolSet.exists_mem hne
    rw [hg] at hx
    obtain ⟨hmem, hnone⟩ := mem_lackingAt.1 hx
    obtain ⟨q, hq⟩ := h m.1 hs x hmem
    exact hnone q hq

/-- Where every state covers the alphabet there is nothing to do. -/
theorem Covers.complete?_eq (h : a.Covers a.effectiveAlphabet) (supply : IdSupply) :
    a.complete? supply = (none, supply) :=
  complete?_of_lacking_eq_nil (lacking_eq_nil_iff.2 h) supply

/-- The targets of a deterministic automaton that covers an alphabet. -/
theorem Covers.unique_target {alphabet : SymbolSet} (h : a.Covers alphabet)
    (hdet : a.isDeterministic = true) {s : StateId} (hs : s ∈ a.states) {x : Symbol}
    (hx : x ∈ alphabet) :
    ∃ q, a.table.Carries s q x ∧ ∀ r, a.table.Carries s r x → r = q := by
  obtain ⟨q, hq⟩ := h s hs x hx
  exact ⟨q, hq, fun r hr => (Table.isDeterministic_iff_carries.1 hdet).2 s r q x hr hq⟩

/-! ## §2. What completion does. -/

/-- `a.CompletedTo c sink`: the second automaton is the first with all symbols that
its states do not cover on edges into the sink.  The sink may be new, but only if
every state is generating. -/
structure CompletedTo (a c : Automaton) (sink : StateId) : Prop where
  wellFormed : c.WellFormed
  start_eq : c.start = a.start
  accept_eq : c.accept = a.accept
  alphabet_eq : c.alphabet = a.alphabet
  names_eq : ∀ s ∈ a.states, c.names.get? s = a.names.get? s
  mem_states : ∀ s, s ∈ c.states ↔ s = sink ∨ s ∈ a.states
  dead : sink ∉ a.generatingStates
  new : sink ∉ a.states → ∀ s ∈ a.states, s ∈ a.generatingStates
  carries : ∀ p q x, c.table.Carries p q x ↔ a.table.Carries p q x
    ∨ q = sink ∧ p ∈ c.states ∧ x ∈ a.effectiveAlphabet ∧ ∀ r, ¬ a.table.Carries p r x
  uncovered : ¬ a.Covers a.effectiveAlphabet

/-- Completion towards a state that is there. -/
theorem completedTo_routeAll (hwf : a.WellFormed) (hs : sink ∈ a.states)
    (hdead : sink ∉ a.generatingStates) (hc : ¬ a.Covers a.effectiveAlphabet) :
    a.CompletedTo (a.routeAll sink (a.lacking a.effectiveAlphabet)) sink := by
  obtain ⟨table, htable⟩ := routeAll_eq a sink (a.lacking a.effectiveAlphabet)
  have hstates := states_routeAll a sink (a.lacking a.effectiveAlphabet)
  exact {
    wellFormed := hwf.routeAll hs fun m hm => (mem_lacking.1 hm).1
    start_eq := by rw [htable]
    accept_eq := by rw [htable]
    alphabet_eq := by rw [htable]
    names_eq := fun s _ => by rw [htable]
    mem_states := fun s => by
      rw [hstates]
      exact (or_iff_right_of_imp fun e => e ▸ hs).symm
    dead := hdead
    new := fun hnew => absurd hs hnew
    carries := fun p q x => by rw [carries_routeAll, exists_mem_lacking, hstates]
    uncovered := hc }

/-- Completion towards a new state, which covers nothing itself. -/
theorem completedTo_addState (hwf : a.WellFormed) (hpos : 0 < sink) (hs : sink ∉ a.states)
    (hgen : ∀ s ∈ a.states, s ∈ a.generatingStates) (name : Json)
    (hc : ¬ a.Covers a.effectiveAlphabet) :
    a.CompletedTo ((a.addState sink name).routeAll sink
      (a.lacking a.effectiveAlphabet ++ [(sink, a.effectiveAlphabet)])) sink := by
  obtain ⟨table, htable⟩ := routeAll_eq (a.addState sink name) sink
    (a.lacking a.effectiveAlphabet ++ [(sink, a.effectiveAlphabet)])
  have hstates : ∀ s, s ∈ ((a.addState sink name).routeAll sink
      (a.lacking a.effectiveAlphabet ++ [(sink, a.effectiveAlphabet)])).states
      ↔ s = sink ∨ s ∈ a.states := by
    intro s
    rw [states_routeAll, mem_states_addState]
  exact {
    wellFormed := by
      refine (hwf.addState hpos name).routeAll (mem_states_addState.2 (Or.inl rfl)) ?_
      intro m hm
      obtain hm | hm := List.mem_append.1 hm
      · exact mem_states_addState.2 (Or.inr (mem_lacking.1 hm).1)
      · exact mem_states_addState.2 (Or.inl (by rw [List.mem_singleton.1 hm]))
    start_eq := by rw [htable]; rfl
    accept_eq := by rw [htable]; rfl
    alphabet_eq := by rw [htable]; rfl
    names_eq := fun s hstate => by
      have hne : s ≠ sink := fun e => hs (e ▸ hstate)
      rw [htable]
      exact OrderedMap.get?_insert_of_ne _ hne _
    mem_states := hstates
    dead := fun h => hs (hwf.mem_states_of_generating h)
    new := fun _ => hgen
    carries := fun p q x => by
      rw [carries_routeAll, hwf.carries_addState hs, exists_mem_lacking_append hwf hs, hstates]
    uncovered := hc }

/-- **What completion does.**  If every state covers the alphabet nothing is done and
no id is taken; otherwise the automaton is completed. -/
theorem SuppliedBy.complete?_spec (h : a.SuppliedBy supply) :
    (a.Covers a.effectiveAlphabet ∧ a.complete? supply = (none, supply))
      ∨ ∃ c sink, (a.complete? supply).1 = some c ∧ a.CompletedTo c sink := by
  by_cases hc : a.Covers a.effectiveAlphabet
  · exact Or.inl ⟨hc, hc.complete?_eq supply⟩
  · refine Or.inr ?_
    rw [complete?_of_lacking_ne_nil (mt lacking_eq_nil_iff.1 hc)]
    unfold completeTowards
    cases hs : a.existingSink? a.generatingStates with
    | some sink =>
        obtain ⟨hstate, hdead⟩ := existingSink?_eq_some hs
        exact ⟨_, sink, rfl, completedTo_routeAll h.wellFormed hstate hdead hc⟩
    | none =>
        have hpos : (0 : Int) < supply.next := Int.lt_of_lt_of_le (by decide) supply.positive
        exact ⟨_, supply.next, rfl, completedTo_addState h.wellFormed hpos h.next_not_mem
          (existingSink?_eq_none_iff.1 hs) rejectStateName hc⟩

/-! ## §3. What follows for the result. -/

namespace CompletedTo

/-- Every state of the result covers the alphabet. -/
theorem covers (h : a.CompletedTo c sink) : c.Covers a.effectiveAlphabet := by
  intro s hs x hx
  by_cases hold : ∃ q, a.table.Carries s q x
  · obtain ⟨q, hq⟩ := hold
    exact ⟨q, (h.carries s q x).2 (Or.inl hq)⟩
  · exact ⟨sink, (h.carries s sink x).2 (Or.inr ⟨rfl, hs, hx, not_exists.1 hold⟩)⟩

theorem label?_eq_of_ne_sink (h : a.CompletedTo c sink) (ha : a.WellFormed) (p : StateId)
    {q : StateId} (hq : q ≠ sink) : c.table.label? p q = a.table.label? p q := by
  refine label?_eq_of_carries ha h.wellFormed fun x => ?_
  rw [h.carries]
  exact or_iff_left fun hnew => hq hnew.1

theorem mem_states_sink (h : a.CompletedTo c sink) : sink ∈ c.states :=
  (h.mem_states sink).2 (Or.inl rfl)

theorem carries_mono (h : a.CompletedTo c sink) {p q : StateId} {x : Symbol}
    (hx : a.table.Carries p q x) : c.table.Carries p q x :=
  (h.carries p q x).2 (Or.inl hx)

/-- The new edges lead into a dead end, so they are on no path to a generating state. -/
theorem path_iff (h : a.CompletedTo c sink) {p s : StateId} (hs : s ∈ a.generatingStates)
    {w : List Char} : Path c.table p w s ↔ Path a.table p w s := by
  obtain ⟨f, hf, hl⟩ := mem_generatingStates.1 hs
  have hdead : ∀ v, ¬ Path a.table sink v s :=
    fun v hv => h.dead (mem_generatingStates.2 ⟨f, hf, hv.linked.trans hl⟩)
  have hnew : ∀ o q x, c.table.Carries o q x → a.table.Carries o q x ∨ q = sink :=
    fun o q x hx => ((h.carries o q x).1 hx).imp_right And.left
  exact ⟨fun hpath => hpath.of_dead_end hnew hdead,
    fun hpath => hpath.mono fun _ _ _ => h.carries_mono⟩

theorem generatingStates_eq (h : a.CompletedTo c sink) (ha : a.WellFormed) :
    c.generatingStates = a.generatingStates := by
  refine OrderedSet.ext fun s => ?_
  rw [h.wellFormed.mem_generatingStates_iff, ha.mem_generatingStates_iff, h.accept_eq]
  refine exists_congr fun w => exists_congr fun f => and_congr_right fun hf => ?_
  exact h.path_iff (mem_generatingStates.2 ⟨f, hf, .refl f⟩)

theorem effectiveAlphabet_eq (h : a.CompletedTo c sink) :
    c.effectiveAlphabet = a.effectiveAlphabet := by
  unfold effectiveAlphabet
  rw [h.alphabet_eq]
  cases hg : a.alphabet with
  | some g => rfl
  | none =>
      have halphabet : a.effectiveAlphabet = a.minimalAlphabet := by
        unfold effectiveAlphabet
        rw [hg]
        rfl
      refine SymbolSet.ext fun x => ?_
      rw [Option.getD_none, Option.getD_none, mem_minimalAlphabet_iff_carries,
        mem_minimalAlphabet_iff_carries]
      constructor
      · intro hx
        obtain ⟨hne, p, q, hpq⟩ := hx
        refine ⟨hne, ?_⟩
        -- A symbol is routed only if it is on some edge already.
        obtain hold | ⟨_, _, hmem, _⟩ := (h.carries p q x).1 hpq
        · exact ⟨p, q, hold⟩
        · rw [halphabet] at hmem
          exact (mem_minimalAlphabet_iff_carries.1 hmem).2
      · intro hx
        obtain ⟨hne, p, q, hpq⟩ := hx
        exact ⟨hne, p, q, h.carries_mono hpq⟩

theorem isDeterministic_eq (h : a.CompletedTo c sink) (ha : a.WellFormed) :
    c.isDeterministic = a.isDeterministic := by
  unfold isDeterministic
  rw [Bool.eq_iff_iff, Table.isDeterministic_iff_carries, Table.isDeterministic_iff_carries]
  constructor
  · intro hdet
    obtain ⟨hempty, hunique⟩ := hdet
    exact ⟨fun o q hq => hempty o q (h.carries_mono hq), fun o p q x hp hq =>
      hunique o p q x (h.carries_mono hp) (h.carries_mono hq)⟩
  · intro hdet
    obtain ⟨hempty, hunique⟩ := hdet
    constructor
    · intro o q hq
      obtain hq | ⟨_, _, hmem, _⟩ := (h.carries o q _).1 hq
      · exact hempty o q hq
      · exact ha.empty_not_mem_effectiveAlphabet hmem
    · intro o p q x hp hq
      -- A symbol is routed only where no edge has it.
      obtain hp | ⟨hps, _, _, hnone⟩ := (h.carries o p x).1 hp
      · obtain hq | ⟨_, _, _, hnone⟩ := (h.carries o q x).1 hq
        · exact hunique o p q x hp hq
        · exact absurd hp (hnone p)
      · obtain hq | ⟨hqs, _⟩ := (h.carries o q x).1 hq
        · exact absurd hq (hnone q)
        · rw [hps, hqs]

/-- At most one state is added, and only if every state is generating. -/
theorem states_cases (h : a.CompletedTo c sink) :
    c.states = a.states
      ∨ (∀ s ∈ a.states, s ∈ a.generatingStates)
        ∧ ∃ s, s ∉ a.states ∧ c.states = OrderedSet.insert s a.states := by
  by_cases hsink : sink ∈ a.states
  · refine Or.inl (OrderedSet.ext fun s => ?_)
    rw [h.mem_states]
    exact or_iff_right_of_imp fun e => e ▸ hsink
  · refine Or.inr ⟨h.new hsink, sink, hsink, OrderedSet.ext fun s => ?_⟩
    rw [h.mem_states, OrderedSet.mem_insert]

end CompletedTo

/-! ## §4. What completion guarantees. -/

/-- **What completion guarantees.**  Whatever member of a lineage is completed, every
state of the result covers the alphabet; no symbol is taken from an edge, and the
edges with other symbols all lead into one state, which is not generating; at most
one state is added, and only if every state is generating; the alphabet and whether
the automaton is deterministic stay, and if it is, each state has one target for
each symbol; and to complete the result changes nothing and takes no id. -/
theorem complete_guarantees (h : InLineage a supply) :
    let c := (a.complete supply).1
    (∀ s ∈ c.states, ∀ x ∈ a.effectiveAlphabet, ∃ q, c.table.Carries s q x)
      ∧ (∀ p q x, a.table.Carries p q x → c.table.Carries p q x)
      ∧ (∃ sink, ∀ p q, c.table.label? p q ≠ a.table.label? p q →
          q = sink ∧ sink ∈ c.states ∧ sink ∉ c.generatingStates)
      ∧ (c.states = a.states
          ∨ (∀ s ∈ a.states, s ∈ a.generatingStates)
            ∧ ∃ s, s ∉ a.states ∧ c.states = OrderedSet.insert s a.states)
      ∧ c.effectiveAlphabet = a.effectiveAlphabet
      ∧ c.isDeterministic = a.isDeterministic
      ∧ (a.isDeterministic = true → ∀ s ∈ c.states, ∀ x ∈ a.effectiveAlphabet,
          ∃ q, c.table.Carries s q x ∧ ∀ r, c.table.Carries s r x → r = q)
      ∧ ∀ supply', c.complete? supply' = (none, supply') := by
  have hsupplied := h.suppliedBy
  have hwf := hsupplied.wellFormed
  obtain ⟨hcovers, hnone⟩ | ⟨c, sink, hsome, hc⟩ := hsupplied.complete?_spec
  · have hsame : (a.complete supply).1 = a := by
      unfold complete
      rw [hnone]
      rfl
    rw [hsame]
    exact ⟨hcovers, fun _ _ _ hx => hx, ⟨0, fun p q hne => absurd rfl hne⟩, Or.inl rfl, rfl,
      rfl, fun hdet s hs x hx => hcovers.unique_target hdet hs hx, hcovers.complete?_eq⟩
  · have hresult : (a.complete supply).1 = c := by
      unfold complete
      dsimp only
      rw [hsome, Option.getD_some]
    have hagain : c.Covers c.effectiveAlphabet := hc.effectiveAlphabet_eq ▸ hc.covers
    rw [hresult]
    refine ⟨hc.covers, fun _ _ _ => hc.carries_mono, ⟨sink, ?_⟩, hc.states_cases,
      hc.effectiveAlphabet_eq, hc.isDeterministic_eq hwf, ?_, hagain.complete?_eq⟩
    · intro p q hne
      refine ⟨?_, hc.mem_states_sink, ?_⟩
      · exact Classical.byContradiction fun hq => hne (hc.label?_eq_of_ne_sink hwf p hq)
      · rw [hc.generatingStates_eq hwf]
        exact hc.dead
    · intro hdet s hs x hx
      exact hc.covers.unique_target ((hc.isDeterministic_eq hwf).trans hdet) hs hx

/-- A completion that adds a state. -/
theorem complete_guarantees_oneLetter :
    let c := (oneLetter.complete .afterOneLetter).1
    c.states.toList = [1, 2, 3] ∧ Symbol.char 'a' ∈ oneLetter.effectiveAlphabet
      ∧ (∃ q, c.table.Carries 2 q (.char 'a'))
      ∧ ∀ supply', c.complete? supply' = (none, supply') := by
  intro c
  have hstates : c.states.toList = [1, 2, 3] := by decide +kernel
  have ha : Symbol.char 'a' ∈ oneLetter.effectiveAlphabet := by decide +kernel
  obtain ⟨hcovers, _, _, _, _, _, _, hagain⟩ := complete_guarantees inLineage_oneLetter
  have htwo : 2 ∈ c.states := by decide +kernel
  exact ⟨hstates, ha, hcovers 2 htwo _ ha, hagain⟩

end Automaton

end FiniteAutomata
