/-
  FiniteAutomata.Proofs.Survival
  ──────────────────────────────
  **WHAT A CHANGE LEAVES TRUE IS TRUE.**

  After a change, a memo keeps some of the analyses that it holds.  Each lemma
  here says that what it keeps is still what the analysis of the changed
  automaton gives.  The arguments are about edges only:

      reachable, generating   depend on which edges there are
      minimal alphabet        depends on the labels at each origin
      deterministic           goes down to tables with fewer edges (`Within`)

  Main statement: one lemma for each way to keep something (`Memo.Sound.…`).
-/
import FiniteAutomata.Automaton.Memo
import FiniteAutomata.Proofs.Acceptance
import FiniteAutomata.Proofs.Changes
import FiniteAutomata.Proofs.Determinism

namespace FiniteAutomata

/-! ## §1. What the analyses depend on. -/

namespace Table

/-- Every edge of the first table is one of the second, with the same label. -/
def Within (t t' : Table) : Prop :=
  ∀ o q g, t.label? o q = some g → t'.label? o q = some g

theorem mem_labels {t : Table} {g : SymbolSet} :
    g ∈ t.labels ↔ ∃ o q, t.label? o q = some g := by
  unfold labels
  rw [List.mem_flatMap]
  constructor
  · intro h
    obtain ⟨r, hr, hg⟩ := h
    obtain ⟨o, ho⟩ := OrderedMap.mem_values.1 hr
    obtain ⟨q, hq⟩ := OrderedMap.mem_values.1 hg
    refine ⟨o, q, ?_⟩
    unfold label? row OrderedMap.getD
    rw [ho]
    exact hq
  · intro h
    obtain ⟨o, q, hl⟩ := h
    unfold label? row OrderedMap.getD at hl
    cases ho : t.get? o with
    | none => simp [ho] at hl
    | some r =>
        rw [ho] at hl
        exact ⟨r, OrderedMap.mem_values.2 ⟨o, ho⟩, OrderedMap.mem_values.2 ⟨q, hl⟩⟩

/-- The symbols on the edges that leave an origin. -/
def outgoing (t : Table) (o : StateId) : SymbolSet := SymbolSet.unionAll (t.row o).values

theorem mem_outgoing {t : Table} {o : StateId} {x : Symbol} :
    x ∈ t.outgoing o ↔ ∃ q, t.Carries o q x := by
  unfold outgoing
  rw [SymbolSet.mem_unionAll]
  constructor
  · intro h
    obtain ⟨g, hg, hx⟩ := h
    obtain ⟨q, hq⟩ := OrderedMap.mem_values.1 hg
    exact ⟨q, g, hq, hx⟩
  · intro h
    obtain ⟨q, g, hl, hx⟩ := h
    exact ⟨g, OrderedMap.mem_values.2 ⟨q, hl⟩, hx⟩

/-- Fewer edges cannot make a deterministic table nondeterministic. -/
theorem isDeterministic_of_within {t t' : Table} (h : t.Within t')
    (hdet : t'.isDeterministic = true) : t.isDeterministic = true := by
  rw [isDeterministic_iff] at hdet ⊢
  refine ⟨fun o q g hg => hdet.1 o q g (h o q g hg), ?_⟩
  intro o p q g g' hpq hp hq
  exact hdet.2 o p q g g' hpq (h o p g hp) (h o q g' hq)

end Table

namespace Automaton

variable {a b : Automaton}

/-- Both automata have an edge between the same states. -/
def SameEdges (a b : Automaton) : Prop :=
  ∀ e, e ∈ a.table.edges ↔ e ∈ b.table.edges

theorem SameEdges.linked (h : a.SameEdges b) {p q : StateId} :
    Linked a.table.edges p q ↔ Linked b.table.edges p q :=
  ⟨fun hl => hl.mono fun e he => (h e).1 he, fun hl => hl.mono fun e he => (h e).2 he⟩

theorem SameEdges.reachableStates (h : a.SameEdges b) (hs : b.start = a.start) :
    a.reachableStates = b.reachableStates := by
  apply OrderedSet.ext
  intro q
  unfold Automaton.reachableStates
  rw [Table.mem_reachable, Table.mem_reachable, hs]
  simp only [h.linked]

theorem SameEdges.generatingStates (h : a.SameEdges b) (hacc : b.accept = a.accept) :
    a.generatingStates = b.generatingStates := by
  apply OrderedSet.ext
  intro q
  rw [mem_generatingStates, mem_generatingStates, hacc]
  simp only [h.linked]

theorem sameEdges_of_label? (h : ∀ o q, b.table.label? o q = a.table.label? o q) :
    a.SameEdges b := by
  intro e
  rw [Table.mem_edges, Table.mem_edges, h]

theorem mem_minimalAlphabet {x : Symbol} :
    x ∈ a.minimalAlphabet
      ↔ x ≠ .empty ∧ ∃ o q g, a.table.label? o q = some g ∧ x ∈ g := by
  unfold minimalAlphabet
  rw [Table.mem_minimalAlphabet]
  refine and_congr_right fun _ => ?_
  constructor
  · intro h
    obtain ⟨g, hg, hx⟩ := h
    obtain ⟨o, q, hl⟩ := Table.mem_labels.1 hg
    exact ⟨o, q, g, hl, hx⟩
  · intro h
    obtain ⟨o, q, g, hl, hx⟩ := h
    exact ⟨g, Table.mem_labels.2 ⟨o, q, hl⟩, hx⟩

theorem mem_minimalAlphabet_iff_outgoing {x : Symbol} :
    x ∈ a.minimalAlphabet ↔ x ≠ .empty ∧ ∃ o, x ∈ a.table.outgoing o := by
  rw [mem_minimalAlphabet]
  simp only [Table.mem_outgoing]
  rfl

end Automaton

/-! ## §2. What memos keep. -/

namespace Memo.Sound

variable {m : Memo} {a b : Automaton}

/-- A memo that keeps some of what a sound one holds is sound if that stays
true. -/
theorem keep {n : Memo} (h : m.Sound a)
    (hr : ∀ s, n.reachable = some s →
      m.reachable = some s ∧ a.reachableStates = b.reachableStates)
    (hg : ∀ s, n.generating = some s →
      m.generating = some s ∧ a.generatingStates = b.generatingStates)
    (hd : ∀ d, n.deterministic = some d →
      m.deterministic = some d
        ∧ (a.isDeterministic = d → b.isDeterministic = d))
    (hm : ∀ s, n.minimalAlphabet = some s →
      m.minimalAlphabet = some s ∧ a.minimalAlphabet = b.minimalAlphabet) :
    n.Sound b where
  reachable s hs := (h.reachable s (hr s hs).1).trans (hr s hs).2
  generating s hs := (h.generating s (hg s hs).1).trans (hg s hs).2
  deterministic d hs := ((hd d hs).2 (h.deterministic d (hd d hs).1).symm).symm
  minimalAlphabet s hs := (h.minimalAlphabet s (hm s hs).1).trans (hm s hs).2

/-- Names, states without edges and the explicit alphabet matter to no analysis. -/
theorem congr (h : m.Sound a) (hs : b.start = a.start) (hacc : b.accept = a.accept)
    (hl : ∀ o q, b.table.label? o q = a.table.label? o q) : m.Sound b := by
  have hsame := Automaton.sameEdges_of_label? hl
  have hdet : a.isDeterministic = b.isDeterministic := by
    rw [Bool.eq_iff_iff]
    unfold Automaton.isDeterministic
    rw [Table.isDeterministic_iff, Table.isDeterministic_iff]
    simp only [hl]
  apply h.keep
  · exact fun s hm => ⟨hm, hsame.reachableStates hs⟩
  · exact fun s hm => ⟨hm, hsame.generatingStates hacc⟩
  · exact fun d hm => ⟨hm, fun e => hdet ▸ e⟩
  · intro s hm
    refine ⟨hm, SymbolSet.ext fun x => ?_⟩
    rw [Automaton.mem_minimalAlphabet, Automaton.mem_minimalAlphabet]
    simp only [hl]

theorem afterStart (h : m.Sound a) (hacc : b.accept = a.accept)
    (ht : b.table = a.table) : m.afterStart.Sound b := by
  apply h.keep
  · exact fun s hm => by cases hm
  · refine fun s hm => ⟨hm, ?_⟩
    unfold Automaton.generatingStates
    rw [hacc, ht]
  · refine fun d hm => ⟨hm, ?_⟩
    unfold Automaton.isDeterministic
    rw [ht]
    exact id
  · refine fun s hm => ⟨hm, ?_⟩
    unfold Automaton.minimalAlphabet
    rw [ht]

theorem afterAccept (h : m.Sound a) (hs : b.start = a.start)
    (ht : b.table = a.table) : m.afterAccept.Sound b := by
  apply h.keep
  · refine fun s hm => ⟨hm, ?_⟩
    unfold Automaton.reachableStates
    rw [hs, ht]
  · exact fun s hm => by cases hm
  · refine fun d hm => ⟨hm, ?_⟩
    unfold Automaton.isDeterministic
    rw [ht]
    exact id
  · refine fun s hm => ⟨hm, ?_⟩
    unfold Automaton.minimalAlphabet
    rw [ht]

/-- Without some of its edges a deterministic table stays deterministic. -/
theorem afterRemoval (h : m.Sound a) (hw : b.table.Within a.table) :
    m.afterRemoval.Sound b := by
  apply h.keep
  · exact fun s hm => by cases hm
  · exact fun s hm => by cases hm
  · intro d hm
    obtain ⟨hm, hd⟩ := Option.filter_eq_some_iff.1 hm
    have hd' : d = true := hd
    subst hd'
    exact ⟨hm, Table.isDeterministic_of_within hw⟩
  · exact fun s hm => by cases hm

/-- With a further edge a table stays nondeterministic. -/
theorem afterNewEdge (h : m.Sound a) (hw : a.table.Within b.table) :
    m.afterNewEdge.Sound b := by
  apply h.keep
  · exact fun s hm => by cases hm
  · exact fun s hm => by cases hm
  · intro d hm
    obtain ⟨hm, hd⟩ := Option.filter_eq_some_iff.1 hm
    have hd' : d = false := by simpa using hd
    subst hd'
    refine ⟨hm, fun hfalse => ?_⟩
    -- Were the larger table deterministic, the smaller one would be.
    rw [← Bool.not_eq_true]
    intro htrue
    have hdet : a.isDeterministic = true := Table.isDeterministic_of_within hw htrue
    rw [hfalse] at hdet
    cases hdet
  · exact fun s hm => by cases hm

/-- Other symbols on an edge lead where it led. -/
theorem afterRelabel (h : m.Sound a) (hs : b.start = a.start) (hacc : b.accept = a.accept)
    (he : a.SameEdges b) : m.afterRelabel.Sound b := by
  apply h.keep
  · exact fun s hm => ⟨hm, he.reachableStates hs⟩
  · exact fun s hm => ⟨hm, he.generatingStates hacc⟩
  · exact fun d hm => by cases hm
  · exact fun s hm => by cases hm

/-- A change of one edge, described by its symbols before and after. -/
theorem afterEdge (h : m.Sound a) (hs : b.start = a.start) (hacc : b.accept = a.accept)
    {o t : StateId}
    (hother : ∀ p q, ¬ (p = o ∧ q = t) → b.table.label? p q = a.table.label? p q) :
    (m.afterEdge (a.table.label? o t) (b.table.label? o t)).Sound b := by
  -- The edge is new, or it is gone, or it has other symbols.
  cases hbefore : a.table.label? o t with
  | none =>
      apply h.afterNewEdge
      intro p q g hl
      by_cases hpq : p = o ∧ q = t
      · rw [hpq.1, hpq.2, hbefore] at hl
        cases hl
      · rw [hother p q hpq]
        exact hl
  | some g =>
      cases hafter : b.table.label? o t with
      | none =>
          apply h.afterRemoval
          intro p q g' hl
          by_cases hpq : p = o ∧ q = t
          · rw [hpq.1, hpq.2, hafter] at hl
            cases hl
          · rw [← hother p q hpq]
            exact hl
      | some g' =>
          apply h.afterRelabel hs hacc
          intro e
          rw [Table.mem_edges, Table.mem_edges]
          by_cases hpq : e.origin = o ∧ e.target = t
          · rw [hpq.1, hpq.2, hbefore, hafter]
            simp
          · rw [hother _ _ hpq]

end Memo.Sound

/-! ## §3. Edges that move. -/

namespace Automaton

variable {a b : Automaton}

/-- After an edge has moved, its new place has its symbols and those that stood
there; its old place has none. -/
theorem label?_of_moveEdge? {o x y : StateId} (h : a.moveEdge? o x y = some b) :
    ∃ g, a.table.label? o x = some g ∧ ∀ p q,
      b.table.label? p q
        = if p = o ∧ q = y then some (g ∪ (a.table.label? o y).getD ∅)
          else if p = o ∧ q = x then none
          else a.table.label? p q := by
  obtain ⟨_, g, hg, rfl⟩ := moveEdge?_eq_some h
  refine ⟨g, hg, ?_⟩
  intro p q
  rw [label?_withRow, OrderedMap.get?_insert, OrderedMap.get?_erase]
  by_cases hp : p = o
  · subst hp
    by_cases hy : q = y <;> by_cases hx : q = x <;> simp [hy, hx, Table.label?]
  · simp [hp]

/-- Nothing is left at the old place. -/
theorem label?_old_of_moveEdge? {o x y : StateId} (h : a.moveEdge? o x y = some b) :
    b.table.label? o x = none := by
  obtain ⟨_, _, hlabel⟩ := label?_of_moveEdge? h
  have hxy : x ≠ y := (moveEdge?_eq_some h).1
  rw [hlabel, if_neg (fun e => hxy e.2), if_pos ⟨rfl, rfl⟩]

/-- At the new place the symbols join those that stand there. -/
theorem label?_new_of_moveEdge? {o x y : StateId} {g : SymbolSet}
    (h : a.moveEdge? o x y = some b) (hl : a.table.label? o x = some g) :
    b.table.label? o y = some (g ∪ (a.table.label? o y).getD ∅) := by
  obtain ⟨g', hg', hlabel⟩ := label?_of_moveEdge? h
  cases hl.symm.trans hg'
  rw [hlabel, if_pos ⟨rfl, rfl⟩]

/-- Every other edge is as it was. -/
theorem label?_other_of_moveEdge? {o x y p q : StateId} (h : a.moveEdge? o x y = some b)
    (hpq : ¬ (p = o ∧ (q = x ∨ q = y))) : b.table.label? p q = a.table.label? p q := by
  obtain ⟨_, _, hlabel⟩ := label?_of_moveEdge? h
  rw [hlabel, if_neg (fun e => hpq ⟨e.1, Or.inr e.2⟩), if_neg (fun e => hpq ⟨e.1, Or.inl e.2⟩)]

/-- The symbols at an origin after a move: each comes from an edge that was
there. -/
theorem exists_label?_of_moveEdge? {o x y p q : StateId} {g : SymbolSet}
    (h : a.moveEdge? o x y = some b) (hl : b.table.label? p q = some g) {z : Symbol}
    (hz : z ∈ g) :
    ∃ q' g', a.table.label? p q' = some g' ∧ z ∈ g'
      ∧ (q' = q ∨ p = o ∧ q' = x ∧ q = y) := by
  obtain ⟨gx, hgx, _⟩ := label?_of_moveEdge? h
  by_cases hpq : p = o ∧ (q = x ∨ q = y)
  · obtain ⟨rfl, rfl | rfl⟩ := hpq
    · rw [label?_old_of_moveEdge? h] at hl
      cases hl
    · cases hl.symm.trans (label?_new_of_moveEdge? h hgx)
      obtain hz | hz := SymbolSet.mem_union.1 hz
      · exact ⟨x, gx, hgx, hz, Or.inr ⟨rfl, rfl, rfl⟩⟩
      · obtain ⟨gy, hgy, hz⟩ := SymbolSet.mem_getD.1 hz
        exact ⟨q, gy, hgy, hz, Or.inl rfl⟩
  · rw [label?_other_of_moveEdge? h hpq] at hl
    exact ⟨q, g, hl, hz, Or.inl rfl⟩

/-- **A move keeps the symbols at each origin.** -/
theorem outgoing_of_moveEdge? {o x y : StateId} (h : a.moveEdge? o x y = some b)
    (p : StateId) : a.table.outgoing p = b.table.outgoing p := by
  apply SymbolSet.ext
  intro z
  rw [Table.mem_outgoing, Table.mem_outgoing]
  constructor
  · intro hz
    obtain ⟨q, g, hl, hz⟩ := hz
    obtain ⟨gx, hgx, _⟩ := label?_of_moveEdge? h
    by_cases hpq : p = o ∧ (q = x ∨ q = y)
    · -- Symbols at the new place stay, those at the old one come along.
      obtain ⟨rfl, hq⟩ := hpq
      refine ⟨y, _, label?_new_of_moveEdge? h hgx, SymbolSet.mem_union.2 ?_⟩
      obtain rfl | rfl := hq
      · cases hl.symm.trans hgx
        exact Or.inl hz
      · exact Or.inr (SymbolSet.mem_getD.2 ⟨g, hl, hz⟩)
    · exact ⟨q, g, (label?_other_of_moveEdge? h hpq).trans hl, hz⟩
  · intro hz
    obtain ⟨q, g, hl, hz⟩ := hz
    obtain ⟨q', g', hl', hz', _⟩ := exists_label?_of_moveEdge? h hl hz
    exact ⟨q', g', hl', hz'⟩

theorem minimalAlphabet_of_moveEdge? {o x y : StateId} (h : a.moveEdge? o x y = some b) :
    a.minimalAlphabet = b.minimalAlphabet := by
  apply SymbolSet.ext
  intro z
  rw [mem_minimalAlphabet_iff_outgoing, mem_minimalAlphabet_iff_outgoing]
  simp only [outgoing_of_moveEdge? h]

/-- Symbols that are on one edge of an origin stay on one when an edge moves. -/
theorem isDeterministic_of_moveEdge? {o x y : StateId} (h : a.moveEdge? o x y = some b)
    (hdet : a.isDeterministic = true) : b.isDeterministic = true := by
  unfold isDeterministic at hdet ⊢
  rw [Table.isDeterministic_iff] at hdet ⊢
  obtain ⟨hempty, hapart⟩ := hdet
  constructor
  · intro p q g hl he
    obtain ⟨q', g', hl', he', _⟩ := exists_label?_of_moveEdge? h hl he
    exact hempty p q' g' hl' he'
  · intro p q r g g' hqr hq hr z hz hz'
    obtain ⟨q', k, hk, hzk, hfromq⟩ := exists_label?_of_moveEdge? h hq hz
    obtain ⟨r', k', hk', hzk', hfromr⟩ := exists_label?_of_moveEdge? h hr hz'
    -- Both symbols come from one edge, so they went to one place.
    have hsame : q' = r' := by
      apply Classical.byContradiction
      intro hne
      exact hapart p q' r' k k' hne hk hk' z hzk hzk'
    have hgone : ∀ {s f}, b.table.label? p s = some f → p = o → s ≠ x := by
      intro s f hs hp hsx
      rw [hp, hsx, label?_old_of_moveEdge? h] at hs
      cases hs
    obtain hq' | ⟨hp, hq', hy⟩ := hfromq
    · obtain hr' | ⟨hp, hr', _⟩ := hfromr
      · exact hqr (hq'.symm.trans (hsame.trans hr'))
      · exact hgone hq hp (hq'.symm.trans (hsame.trans hr'))
    · obtain hr' | ⟨_, _, hy'⟩ := hfromr
      · exact hgone hr hp (hr'.symm.trans (hsame.symm.trans hq'))
      · exact hqr (hy.trans hy'.symm)

end Automaton

/-- A move keeps symbols and determinism. -/
theorem Memo.Sound.afterMove {m : Memo} {a b : Automaton} (h : m.Sound a)
    {o x y : StateId} (hb : a.moveEdge? o x y = some b) : m.afterMove.Sound b := by
  apply h.keep
  · exact fun s hm => by cases hm
  · exact fun s hm => by cases hm
  · intro d hm
    obtain ⟨hm, hd⟩ := Option.filter_eq_some_iff.1 hm
    have hd' : d = true := hd
    subst hd'
    exact ⟨hm, Automaton.isDeterministic_of_moveEdge? hb⟩
  · exact fun s hm => ⟨hm, Automaton.minimalAlphabet_of_moveEdge? hb⟩

end FiniteAutomata
