/-
  FiniteAutomata.Proofs.Letters
  ─────────────────────────────
  **THE MINIMAL ALPHABET OF A TRIMMED AUTOMATON IS THAT OF ITS LANGUAGE.**

  An accepted word takes each of its letters from an edge that lies between the start
  and an accepting state.  The other way round, each letter of such an edge is in an
  accepted word: one that leads from the start to the edge, takes the letter, and goes
  on to an accepting state.  Edges without input may lie on both ways.  Trimming keeps
  exactly these edges, unless the start is kept as the start only:

      exists_accepted_iff   the letters of the language, as edges
      carries_trim_iff      the edges that trimming keeps

  Main statement: `mem_minimalAlphabet_trim_iff`.
-/
import FiniteAutomata.Proofs.Coverage
import FiniteAutomata.Proofs.Trimmed

namespace FiniteAutomata.Automaton

variable {a : Automaton} {p q : StateId} {c : Char}

/-! ## §1. The letters of the language. -/

/-- An accepted word takes its letters from edges between the start and an accepting
state. -/
theorem exists_carries_of_accepts {w : List Char} (hw : a.accepts w = true) (hc : c ∈ w) :
    ∃ p q, p ∈ a.reachableStates ∧ a.table.Carries p q (.char c)
      ∧ q ∈ a.generatingStates := by
  obtain ⟨s, hs, f, hf, hpath⟩ := accepts_iff.1 hw
  obtain ⟨u, v, rfl⟩ := List.append_of_mem hc
  obtain ⟨m, hbefore, hrest⟩ := hpath.split
  obtain ⟨p, q, g, hsilent, hl, hg, hafter⟩ := hrest.exists_read
  refine ⟨p, q, ?_, ⟨g, hl, hg⟩, ?_⟩
  · exact mem_reachableStates.2 ⟨s, hs, hbefore.linked.trans hsilent.linked⟩
  · exact mem_generatingStates.2 ⟨f, hf, hafter.linked⟩

/-- A letter between the start and an accepting state is in an accepted word. -/
theorem WellFormed.exists_accepted_of_carries (h : a.WellFormed) (hp : p ∈ a.reachableStates)
    (hpq : a.table.Carries p q (.char c)) (hq : q ∈ a.generatingStates) :
    ∃ w, a.accepts w = true ∧ c ∈ w := by
  obtain ⟨u, s, hs, hbefore⟩ := h.mem_reachableStates_iff.1 hp
  obtain ⟨v, f, hf, hafter⟩ := h.mem_generatingStates_iff.1 hq
  obtain ⟨g, hl, hg⟩ := hpq
  refine ⟨u ++ c :: v, ?_, by simp⟩
  exact accepts_iff.2 ⟨s, hs, f, hf, hbefore.append (.read hl hg hafter)⟩

/-- **The letters of the language** are those of edges between the start and an
accepting state. -/
theorem WellFormed.exists_accepted_iff (h : a.WellFormed) :
    (∃ w, a.accepts w = true ∧ c ∈ w)
      ↔ ∃ p q, p ∈ a.reachableStates ∧ a.table.Carries p q (.char c)
          ∧ q ∈ a.generatingStates := by
  constructor
  · intro hex
    obtain ⟨w, hw, hc⟩ := hex
    exact exists_carries_of_accepts hw hc
  · intro hex
    obtain ⟨p, q, hp, hpq, hq⟩ := hex
    exact h.exists_accepted_of_carries hp hpq hq

/-! ## §2. The edges that are kept. -/

/-- **The edges that trimming keeps** are those between the start and an accepting
state, if the start is generating or there is none. -/
theorem WellFormed.carries_trim_iff (h : a.WellFormed)
    (hstart : ∀ s, a.start = some s → s ∈ a.generatingStates) {x : Symbol} :
    a.trim.table.Carries p q x
      ↔ p ∈ a.reachableStates ∧ a.table.Carries p q x ∧ q ∈ a.generatingStates := by
  rw [h.trim_eq_restrictTo, carries_restrictTo_iff]
  constructor
  · intro hkept
    obtain ⟨⟨hp, hq⟩, hx⟩ := hkept
    refine ⟨mem_reachableStates_of_kept hp, hx, ?_⟩
    obtain hs | ⟨_, hgen⟩ := mem_keptStates.1 hq
    · exact hstart q hs
    · exact hgen
  · intro hx
    obtain ⟨hp, hx, hq⟩ := hx
    obtain ⟨s, hs, hsp⟩ := mem_reachableStates.1 hp
    obtain ⟨f, hf, hqf⟩ := mem_generatingStates.1 hq
    have hpq : Linked a.table.edges p q := by
      obtain ⟨g, hl, _⟩ := hx
      exact Table.linked_of_label? hl
    have hspans := spans_keptStates hs hsp hf hqf
    exact ⟨⟨hspans p (.refl p) hpq, hspans q hpq (.refl q)⟩, hx⟩

/-! ## §3. The alphabet. -/

/-- **The minimal alphabet of a trimmed automaton is that of its language.**  If the
start of a member of a lineage is generating, or if there is none, then a character is
in the minimal alphabet of what trimming leaves iff the automaton accepts some word
that contains it. -/
theorem mem_minimalAlphabet_trim_iff {supply : IdSupply} (h : InLineage a supply)
    (hstart : ∀ s, a.start = some s → s ∈ a.generatingStates) (c : Char) :
    .char c ∈ a.trim.minimalAlphabet ↔ ∃ w, a.accepts w = true ∧ c ∈ w := by
  have ha : a.WellFormed := h.suppliedBy.wellFormed
  rw [mem_minimalAlphabet_iff_carries, ha.exists_accepted_iff]
  simp only [ha.carries_trim_iff hstart]
  exact and_iff_right (by simp)

/-- The set of the character `b`. -/
def letterB : SymbolSet :=
  ⟨.singleton (.char 'b'), fun _ h => OrderedSet.mem_singleton.1 h ▸ rfl⟩

/-- One letter, and an edge with another one into a dead end. -/
def blindAlley : Automaton :=
  { oneLetter with
    states := .ofList [1, 2, 3]
    names := .ofList [(1, .null), (2, .null), (3, defaultStateName)]
    table := .ofList [(1, .ofList [(2, .letterA), (3, letterB)]), (2, ∅), (3, ∅)] }

/-- The ids that its lineage has left. -/
def afterBlindAlley : IdSupply := ⟨4, by decide⟩

theorem inLineage_blindAlley : InLineage blindAlley afterBlindAlley := by
  have hthree := inLineage_oneLetter.edited (e := .addState defaultStateName) rfl rfl
  exact hthree.edited (e := .setTransition (.id 1) (.id 3) (.symbols letterB)) rfl rfl

/-- The letter of the dead end is on an edge, but in no accepted word. -/
theorem mem_minimalAlphabet_trim_iff_blindAlley :
    .char 'b' ∈ blindAlley.minimalAlphabet
      ∧ (¬ ∃ w, blindAlley.accepts w = true ∧ 'b' ∈ w)
      ∧ ∃ w, blindAlley.accepts w = true ∧ 'a' ∈ w := by
  have hstart : ∀ s, blindAlley.start = some s → s ∈ blindAlley.generatingStates := by
    intro s hs
    cases hs
    decide +kernel
  have hletters := mem_minimalAlphabet_trim_iff inLineage_blindAlley hstart
  refine ⟨by decide +kernel, ?_, ?_⟩
  · exact (not_congr (hletters 'b')).1 (by decide +kernel)
  · exact (hletters 'a').1 (by decide +kernel)

/-- A start that is kept as the start only keeps its loop, though nothing is accepted. -/
example :
    let a : Automaton :=
      { oneLetter with accept := ∅, table := .ofList [(1, .ofList [(1, .letterA)]), (2, ∅)] }
    .char 'a' ∈ a.trim.minimalAlphabet ∧ a.generatingStates = ∅ := by
  decide +kernel

end FiniteAutomata.Automaton
