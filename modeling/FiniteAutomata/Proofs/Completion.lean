/-
  FiniteAutomata.Proofs.Completion
  ────────────────────────────────
  **COMPLETION CHANGES NO ANSWER.**

  All symbols that completion adds are on edges into one state, the sink.  Before
  the completion no accepting state could be reached from it: it was not
  generating, or it was not there.  So a path of the completed automaton that
  ends in an accepting state has no new edge: behind the last one it would be an
  old path from the sink to an accepting state.

      carries_routeAll     which symbols are on which edges after the completion
      Path.of_dead_end     the argument on the last new edge
      accepts_complete     the language of the completed automaton
-/
import FiniteAutomata.Proofs.Acceptance
import FiniteAutomata.Proofs.Lineage

namespace FiniteAutomata

/-! ## §1. New edges into a dead end. -/

/-- If all new symbols are on edges into a state from which a state cannot be
reached, then the paths to that state are the old ones. -/
theorem Path.of_dead_end {t t' : Table} {sink f : StateId}
    (hnew : ∀ p q x, t'.Carries p q x → t.Carries p q x ∨ q = sink)
    (hdead : ∀ w, ¬ Path t sink w f) {p : StateId} {w : List Char} (h : Path t' p w f) :
    Path t p w f := by
  -- The rest of the path is an old one, so it does not begin in the sink.
  induction h with
  | nil p => exact .nil p
  | silent hl he _ ih =>
      have hrest := ih hdead
      obtain ⟨g, hl', he'⟩ | hsink := hnew _ _ _ ⟨_, hl, he⟩
      · exact .silent hl' he' hrest
      · exact absurd (hsink ▸ hrest) (hdead _)
  | read hl hc _ ih =>
      have hrest := ih hdead
      obtain ⟨g, hl', hc'⟩ | hsink := hnew _ _ _ ⟨_, hl, hc⟩
      · exact .read hl' hc' hrest
      · exact absurd (hsink ▸ hrest) (hdead _)

namespace Automaton

variable {a b : Automaton}

/-- An automaton that differs only in symbols on edges into a state that is not
generating accepts the same words. -/
theorem accepts_of_dead_end {sink : StateId} (hstart : b.start = a.start)
    (haccept : b.accept = a.accept)
    (hold : ∀ p q x, a.table.Carries p q x → b.table.Carries p q x)
    (hnew : ∀ p q x, b.table.Carries p q x → a.table.Carries p q x ∨ q = sink)
    (hdead : sink ∉ a.generatingStates) (w : List Char) : b.accepts w = a.accepts w := by
  rw [Bool.eq_iff_iff, accepts_iff, accepts_iff, hstart, haccept]
  constructor
  · intro h
    obtain ⟨s, hs, f, hf, hpath⟩ := h
    -- The sink is no origin of an old path to an accepting state.
    have hnone : ∀ v, ¬ Path a.table sink v f :=
      fun v hv => hdead (mem_generatingStates.2 ⟨f, hf, hv.linked⟩)
    exact ⟨s, hs, f, hf, hpath.of_dead_end hnew hnone⟩
  · intro h
    obtain ⟨s, hs, f, hf, hpath⟩ := h
    exact ⟨s, hs, f, hf, hpath.mono hold⟩

/-! ## §2. The symbols on edges after routing. -/

theorem relabel?_eq_none {o t : StateId} {g : SymbolSet} (h : a.relabel? o t g = none) :
    g = ∅ ∧ a.table.label? o t = none ∨ a.table.label? o t = some g := by
  unfold relabel? at h
  by_cases hg : g = ∅
  -- An empty label drops the edge, which fails if there is none.
  · rw [if_pos (SymbolSet.isEmpty_iff.2 hg)] at h
    unfold dropEdge? at h
    cases hl : a.table.label? o t with
    | none => exact Or.inl ⟨hg, rfl⟩
    | some g' => simp [hl] at h
  · rw [if_neg fun e => hg (SymbolSet.isEmpty_iff.1 e)] at h
    by_cases hl : a.table.label? o t = some g
    · exact Or.inr hl
    · simp [hl] at h

theorem carries_relabel {o t p q : StateId} {g : SymbolSet} {x : Symbol} :
    ((a.relabel? o t g).getD a).table.Carries p q x ↔
      if p = o ∧ q = t then x ∈ g else a.table.Carries p q x := by
  unfold Table.Carries
  cases hb : a.relabel? o t g with
  | some b =>
      simp only [Option.getD_some, label?_of_relabel? hb]
      by_cases hpq : p = o ∧ q = t
      · by_cases hg : g = ∅
        · simp [hpq, hg, SymbolSet.isEmpty_iff]
        · simp [hpq, hg, SymbolSet.isEmpty_iff]
      · simp [hpq]
  | none =>
      rw [Option.getD_none]
      by_cases hpq : p = o ∧ q = t
      · obtain ⟨rfl, rfl⟩ := hpq
        obtain ⟨hg, hl⟩ | hl := relabel?_eq_none hb <;> simp [*]
      · rw [if_neg hpq]

/-- Routing puts further symbols on one edge. -/
theorem carries_route {o sink p q : StateId} {g : SymbolSet} {x : Symbol} :
    (a.route o sink g).table.Carries p q x ↔
      a.table.Carries p q x ∨ q = sink ∧ p = o ∧ x ∈ g := by
  unfold route
  rw [carries_relabel, SymbolSet.mem_union]
  by_cases hpq : p = o ∧ q = sink
  · obtain ⟨rfl, rfl⟩ := hpq
    have hl : x ∈ (a.table.label? p q).getD ∅ ↔ a.table.Carries p q x := SymbolSet.mem_getD
    simp [hl]
  · rw [if_neg hpq]
    constructor
    · exact Or.inl
    · intro h
      exact h.resolve_right fun hx => hpq ⟨hx.2.1, hx.1⟩

theorem carries_routeAll {sink p q : StateId} {missing : List (StateId × SymbolSet)}
    {x : Symbol} :
    (a.routeAll sink missing).table.Carries p q x ↔
      a.table.Carries p q x ∨ q = sink ∧ ∃ g, (p, g) ∈ missing ∧ x ∈ g := by
  induction missing generalizing a with
  | nil =>
      show a.table.Carries p q x ↔ _
      simp
  | cons m missing ih =>
      obtain ⟨o, g⟩ := m
      show ((a.route o sink g).routeAll sink missing).table.Carries p q x ↔ _
      rw [ih, carries_route, or_assoc, ← and_or_left]
      -- What the first origin lacks, or what a later one does.
      have hcons : (∃ g', (p, g') ∈ (o, g) :: missing ∧ x ∈ g')
          ↔ (p = o ∧ x ∈ g) ∨ ∃ g', (p, g') ∈ missing ∧ x ∈ g' := by
        simp only [List.mem_cons, Prod.mk.injEq, or_and_right, exists_or, and_assoc,
          exists_and_left, exists_eq_left]
      rw [hcons]

/-! ## §3. The language. -/

/-- A generating state is a state. -/
theorem WellFormed.mem_states_of_generating (h : a.WellFormed) {s : StateId}
    (hs : s ∈ a.generatingStates) : s ∈ a.states := by
  obtain ⟨f, hf, hl⟩ := mem_generatingStates.1 hs
  -- A link of no edges ends where it starts; any other starts with an edge of a state.
  have hleaves : f = s ∨ s ∈ a.states := by
    clear hf
    induction hl with
    | refl => exact Or.inl rfl
    | tail e _ he _ ih =>
        obtain horigin | hmem := ih
        · obtain ⟨g, hg⟩ := Table.mem_edges.1 he
          exact Or.inr (h.origin_mem (horigin ▸ hg))
        · exact Or.inr hmem
  obtain rfl | hmem := hleaves
  · exact h.accept_subset f hf
  · exact hmem

theorem accepts_routeAll {sink : StateId} (hdead : sink ∉ a.generatingStates)
    (missing : List (StateId × SymbolSet)) (w : List Char) :
    (a.routeAll sink missing).accepts w = a.accepts w := by
  obtain ⟨table, htable⟩ := routeAll_eq a sink missing
  refine accepts_of_dead_end ?_ ?_ ?_ ?_ hdead w
  · rw [htable]
  · rw [htable]
  · exact fun p q x h => carries_routeAll.2 (Or.inl h)
  · exact fun p q x h => (carries_routeAll.1 h).imp_right And.left

/-- A new state has no edges yet. -/
theorem WellFormed.carries_addState (h : a.WellFormed) {s : StateId} (hs : s ∉ a.states)
    {name : Json} {p q : StateId} {x : Symbol} :
    (a.addState s name).table.Carries p q x ↔ a.table.Carries p q x := by
  unfold Table.Carries
  rw [label?_addState]
  by_cases hp : p = s
  · rw [if_pos hp, hp, h.label?_eq_none hs]
  · rw [if_neg hp]

theorem accepts_addState_routeAll (hwf : a.WellFormed) {sink : StateId}
    (hs : sink ∉ a.states) (name : Json) (missing : List (StateId × SymbolSet))
    (w : List Char) : ((a.addState sink name).routeAll sink missing).accepts w = a.accepts w := by
  obtain ⟨table, htable⟩ := routeAll_eq (a.addState sink name) sink missing
  have hdead : sink ∉ a.generatingStates := fun h => hs (hwf.mem_states_of_generating h)
  refine accepts_of_dead_end ?_ ?_ ?_ ?_ hdead w
  · rw [htable]
    rfl
  · rw [htable]
    rfl
  · exact fun p q x h => carries_routeAll.2 (Or.inl ((hwf.carries_addState hs).2 h))
  · exact fun p q x h => (carries_routeAll.1 h).imp (hwf.carries_addState hs).1 And.left

/-- **Completion changes no answer.**  Every member of a lineage accepts the same
words after its completion. -/
theorem accepts_complete {supply : IdSupply} (h : InLineage a supply) (w : List Char) :
    (a.complete supply).1.accepts w = a.accepts w := by
  have hs := h.suppliedBy
  unfold complete
  obtain hc | ⟨sink, _, hdead, hc⟩ | hc := complete?_cases a supply
  · rw [hc]
    rfl
  · rw [hc]
    exact accepts_routeAll hdead _ w
  · rw [hc]
    exact accepts_addState_routeAll hs.wellFormed hs.next_not_mem _ _ w

/-- A completion that adds a state. -/
theorem accepts_complete_oneLetter :
    (oneLetter.complete .afterOneLetter).1.states.size = 3
      ∧ ∀ w, (oneLetter.complete .afterOneLetter).1.accepts w = oneLetter.accepts w :=
  ⟨by decide +kernel, accepts_complete inLineage_oneLetter⟩

end Automaton

end FiniteAutomata
