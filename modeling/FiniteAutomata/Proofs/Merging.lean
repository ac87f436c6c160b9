/-
  FiniteAutomata.Proofs.Merging
  ─────────────────────────────
  **REPEATED TRANSITIONS ARE MERGED, IN WHATEVER ORDER THEY COME.**

  A row may list a target several times.  The edge that is read matches what any
  of its texts lists, and there is none if they list nothing:

      listed              the union over the texts for one target
      carries_iff_listed  what the edge carries
      ofDefinition_merges the automaton in terms of these unions

  So only the members of rows and accepting indices matter, and a definition that
  says the same is read as the same automaton.
-/
import FiniteAutomata.Proofs.Resaving
import FiniteAutomata.Proofs.Validation

namespace FiniteAutomata

namespace Definition

variable {d : Definition} {f : Automaton}

/-! ## §1. Unions. -/

/-- What the texts for a target list in the row of an index. -/
def listed (d : Definition) (i j : Nat) : SymbolSet :=
  SymbolSet.unionAll ((d.row i).filterMap fun e =>
    if e.1 = j then (SymbolSet.read e.2).toOption else none)

theorem mem_listed {i j : Nat} {x : Symbol} :
    x ∈ d.listed i j ↔ ∃ e ∈ d.row i, e.1 = j ∧ SymbolSet.Lists e.2 x := by
  unfold listed
  rw [SymbolSet.mem_unionAll]
  simp only [List.mem_filterMap, Option.ite_none_right_eq_some, toOption_eq_some]
  constructor
  · intro hx
    obtain ⟨g, ⟨e, he, hj, hg⟩, hx⟩ := hx
    exact ⟨e, he, hj, g, hg, hx⟩
  · intro hx
    obtain ⟨e, he, hj, g, hg, hx⟩ := hx
    exact ⟨g, ⟨e, he, hj, hg⟩, hx⟩

/-- **An edge carries what the texts for it list.** -/
theorem Describes.carries_iff_listed (hd : d.Describes f) (h : d.Valid) {i j : Nat}
    {x : Symbol} : f.table.Carries (Automaton.idAt i) (Automaton.idAt j) x ↔ x ∈ d.listed i j := by
  rw [hd.carries, mem_listed]
  simp only [Automaton.idAt_inj]
  constructor
  · intro hx
    obtain ⟨i', _, rfl, e, he, rfl, hx⟩ := hx
    exact ⟨e, he, rfl, hx⟩
  · intro hx
    obtain ⟨e, he, rfl, hx⟩ := hx
    exact ⟨i, (h.lt_of_mem_row he).1, rfl, e, he, rfl, hx⟩

theorem Describes.label?_eq_listed (hd : d.Describes f) (hf : f.WellFormed) (h : d.Valid)
    (i j : Nat) : f.label? (.id (Automaton.idAt i)) (.id (Automaton.idAt j))
      = if (d.listed i j).isEmpty then none else some (d.listed i j) := by
  rw [hf.label?_id]
  exact hf.carries_iff_label?.1 fun x => hd.carries_iff_listed h

theorem Describes.isAccept_iff (hd : d.Describes f) (hf : f.WellFormed) (i : Nat) :
    f.isAccept (.id (Automaton.idAt i)) = true ↔ i ∈ d.accept := by
  rw [hf.isAccept_id, hd.accept]
  simp [Automaton.idAt_inj]

/-! ## §2. What a definition is read as. -/

/-- **Transitions between the same states are merged.**  The edge between two indices
matches what any of the texts for it lists, and there is none if they list nothing.  The
first state is the start, and what is listed as accepting accepts.  A definition that says
the same is read as the same automaton, so nothing depends on order and repetition. -/
theorem ofDefinition_merges (h : d.Valid) (hlegible : d.Legible) :
    ∃ f, Automaton.ofDefinition d = .ok f
      ∧ (∀ i j, f.symbols (.id (Automaton.idAt i)) (.id (Automaton.idAt j)) = d.listed i j
          ∧ (f.hasEdge (.id (Automaton.idAt i)) (.id (Automaton.idAt j)) none = false ↔
              d.listed i j = ∅))
      ∧ f.start = (if d.count = 0 then none else some 1)
      ∧ (∀ i, f.isAccept (.id (Automaton.idAt i)) = true ↔ i ∈ d.accept)
      ∧ ∀ d', d.SameContent d' → Automaton.ofDefinition d' = .ok f := by
  have hreadable := h.readable hlegible
  obtain ⟨f, hread, hd⟩ := Automaton.ofDefinition_ok hreadable
  have hf := Automaton.wellFormed_ofDefinition hread
  refine ⟨f, hread, ?_, hd.start_eq, hd.isAccept_iff hf, ?_⟩
  · intro i j
    unfold Automaton.symbols Automaton.hasEdge
    rw [hd.label?_eq_listed hf h]
    by_cases hempty : d.listed i j = ∅
    · rw [if_pos (SymbolSet.isEmpty_iff.2 hempty)]
      exact ⟨hempty.symm, iff_of_true rfl hempty⟩
    · rw [if_neg (mt SymbolSet.isEmpty_iff.1 hempty)]
      exact ⟨rfl, iff_of_false nofun hempty⟩
  · exact fun d' hsame => hsame.ofDefinition_eq hreadable hread

/-- A row that lists one target twice and another for nothing. -/
def repeated : Definition where
  count := 2
  names := []
  accept := [1, 1]
  transitions := [[(1, "a"), (0, ",,"), (1, "b-c")]]
  alphabet := none

/-- The same in another order and with other repetitions. -/
def reordered : Definition :=
  { repeated with
    accept := [1]
    transitions := [[(1, "b-c"), (1, "a"), (0, ",,"), (1, "a")]] }

theorem sameContent_reordered : repeated.SameContent reordered := by
  refine sameContent_of_members (fun i => ?_) (.cons (fun e => ?_) .nil)
  · simp [repeated]
  · simp only [List.mem_cons, List.not_mem_nil, or_false]
    tauto

theorem legible_repeated : repeated.Legible := by
  have htexts : repeated.texts = ["a", ",,", "b-c"] := rfl
  unfold Legible
  rw [htexts]
  exact List.forall_mem_cons.2 ⟨⟨_, rfl⟩, List.forall_mem_cons.2 ⟨⟨_, rfl⟩,
    List.forall_mem_singleton.2 ⟨_, rfl⟩⟩⟩

theorem ofDefinition_merges_repeated :
    repeated.Valid ∧ repeated.Legible ∧ ∃ f, Automaton.ofDefinition repeated = .ok f
      ∧ (f.symbols (.id 1) (.id 2)).chars = ['a', 'b', 'c']
      ∧ f.hasEdge (.id 1) (.id 1) none = false
      ∧ Automaton.ofDefinition reordered = .ok f := by
  have hvalid : repeated.Valid :=
    { names := by decide
      rows := by decide
      accept_lt := by decide
      target_lt := by decide }
  have hboth : (repeated.listed 0 1).chars = ['a', 'b', 'c'] := by decide +kernel
  have hnothing : repeated.listed 0 0 = ∅ := by decide +kernel
  obtain ⟨f, hread, hedges, _, _, hsame⟩ := ofDefinition_merges hvalid legible_repeated
  refine ⟨hvalid, legible_repeated, f, hread, ?_, ?_, hsame _ sameContent_reordered⟩
  · exact (congrArg SymbolSet.chars (hedges 0 1).1).trans hboth
  · exact (hedges 0 0).2.2 hnothing

end Definition

end FiniteAutomata
