/-
  FiniteAutomata.Proofs.Lineage
  ─────────────────────────────
  **LINEAGES: ALL AUTOMATA THAT CAN BE OBTAINED.**

  A lineage starts with an automaton that is created from nothing, from parts,
  from a definition or from a document, and goes on with edits.  `InLineage a
  supply` says that `a` is a member of some lineage at a time when `supply` is
  what the lineage has left; edits of other members may have taken ids since
  `a` was made.

  Main statement: every member is well-formed and lies below the ids that are
  left (`InLineage.suppliedBy`).
-/
import FiniteAutomata.Definition.Codec
import FiniteAutomata.Proofs.WellFormed

namespace FiniteAutomata

/-! ## §1. Automata from parts. -/

namespace Parts

theorem mem_of_find?_eq_some {states : StateSet} {id : Json} {s : StateId}
    (h : find? states id = some s) : s ∈ states := by
  unfold find? at h
  simpa using (Option.filter_eq_some_iff.1 h).2

/-- Ids that are read as states are positive. -/
theorem readStates_positive {ids : List Json} {states : StateSet}
    (h : readStates ids = .ok states) : ∀ s ∈ states, 0 < s := by
  induction ids generalizing states with
  | nil =>
      cases h
      intro s hs
      exact absurd hs (OrderedSet.not_mem_empty s)
  | cons id rest ih =>
      unfold readStates at h
      cases hid : id.asInt? with
      | none => simp [hid] at h
      | some n =>
          simp only [hid] at h
          by_cases hn : n ≤ 0
          · simp [hn] at h
          · rw [if_neg hn] at h
            cases hr : readStates rest with
            | error e => simp [hr, Except.map] at h
            | ok states' =>
                simp only [hr, Except.map, Except.ok.injEq] at h
                subst h
                intro s hs
                obtain rfl | hs := OrderedSet.mem_insert.1 hs
                · exact Int.not_le.1 hn
                · exact ih hr s hs

theorem readStart_mem {states : StateSet} {id : Json} {start : Option StateId}
    (h : readStart states id = .ok start) : ∀ s, start = some s → s ∈ states := by
  intro s hs
  subst hs
  unfold readStart at h
  by_cases hz : id.toInt? = some 0
  · simp [hz] at h
  · rw [if_neg hz] at h
    by_cases hk : (!id.isKey) = true
    · simp [hk] at h
    · rw [if_neg hk] at h
      cases hf : find? states id with
      | none => simp [hf] at h
      | some q =>
          simp only [hf, Except.ok.injEq, Option.some.injEq] at h
          exact h ▸ mem_of_find?_eq_some hf

theorem readAccept_subset {states : StateSet} {ids : List Json} {accept : StateSet}
    (h : readAccept states ids = .ok accept) : ∀ s ∈ accept, s ∈ states := by
  intro s hs
  unfold readAccept at h
  by_cases hk : (!ids.all Json.isKey) = true
  · simp [hk] at h
  · rw [if_neg hk] at h
    cases hu : ids.filter fun id => (find? states id).isNone with
    | nil =>
        simp only [hu, Except.ok.injEq] at h
        subst h
        obtain ⟨id, _, hid⟩ := List.mem_filterMap.1 (OrderedSet.mem_ofList.1 hs)
        exact mem_of_find?_eq_some hid
    | cons id rest =>
        simp only [hu] at h
        -- Ids that are not known are an error, whether or not they can be sorted.
        cases hsort : Json.sorted? ((id :: rest).eraseDupsBy Json.alike) <;>
          simp [hsort] at h

/-- The entries of a row lead to states and match something. -/
def RowOver (states : StateSet) (r : Row) : Prop :=
  ∀ t g, r.get? t = some g → t ∈ states ∧ g ≠ ∅

theorem rowOver_empty (states : StateSet) : RowOver states ∅ := by
  intro t g h
  simp at h

theorem readRow_over {states : StateSet} {l : List (Json × Label)} {r r' : Row}
    (hr : RowOver states r) (h : readRow states r l = .ok r') : RowOver states r' := by
  induction l generalizing r with
  | nil =>
      cases h
      exact hr
  | cons e rest ih =>
      obtain ⟨id, label⟩ := e
      unfold readRow at h
      cases hf : find? states id with
      | none => simp [hf] at h
      | some t =>
          simp only [hf] at h
          obtain ⟨g, _, h⟩ := bind_eq_ok.1 h
          refine ih ?_ h
          by_cases hg : g.isEmpty = true
          · rw [if_pos hg]
            exact hr
          · rw [if_neg hg]
            -- An entry is the one that is added now, or it was there.
            intro q g' hq
            rw [OrderedMap.get?_insert] at hq
            by_cases hqt : q = t
            · rw [if_pos hqt] at hq
              injection hq with hq
              refine ⟨hqt ▸ mem_of_find?_eq_some hf, ?_⟩
              intro he
              exact hg (SymbolSet.isEmpty_iff.2 (hq.trans he))
            · rw [if_neg hqt] at hq
              exact hr q g' hq

/-- A row for each state, and edges that lead to states and match something. -/
def TableOver (states : StateSet) (t : Table) : Prop :=
  t.keys = states ∧ ∀ o, RowOver states (t.row o)

/-- Before any transition is read no row has an entry. -/
theorem row_tabulate (states : StateSet) (o : StateId) :
    Table.row (.tabulate states fun _ => ∅) o = ∅ := by
  unfold Table.row OrderedMap.getD
  rw [OrderedMap.get?_tabulate]
  by_cases ho : o ∈ states <;> simp [ho]

theorem label?_tabulate (states : StateSet) (o q : StateId) :
    Table.label? (.tabulate states fun _ => ∅) o q = none := by
  unfold Table.label?
  rw [row_tabulate]
  rfl

theorem tableOver_tabulate (states : StateSet) :
    TableOver states (.tabulate states fun _ => ∅) := by
  refine ⟨OrderedMap.keys_tabulate states _, fun o => ?_⟩
  rw [row_tabulate]
  exact rowOver_empty states

theorem TableOver.insert {states : StateSet} {t : Table} {o : StateId} {r : Row}
    (h : TableOver states t) (ho : o ∈ states) (hr : RowOver states r) :
    TableOver states (OrderedMap.insert t o r) := by
  refine ⟨(OrderedMap.keys_insert_of_mem (h.1 ▸ ho) r).trans h.1, fun p => ?_⟩
  rw [Table.row_insert]
  by_cases hp : p = o
  · rw [if_pos hp]
    exact hr
  · rw [if_neg hp]
    exact h.2 p

theorem readTable_over {states : StateSet} {l : List (Json × List (Json × Label))}
    {t t' : Table} (ht : TableOver states t) (h : readTable states t l = .ok t') :
    TableOver states t' := by
  induction l generalizing t with
  | nil =>
      cases h
      exact ht
  | cons e rest ih =>
      obtain ⟨id, edges⟩ := e
      unfold readTable at h
      cases hf : find? states id with
      | none => simp [hf] at h
      | some o =>
          simp only [hf] at h
          obtain ⟨r, hrow, h⟩ := bind_eq_ok.1 h
          exact ih (ht.insert (mem_of_find?_eq_some hf) (readRow_over (ht.2 o) hrow)) h

end Parts

/-- The checks that parts pass, and what they give. -/
theorem Automaton.ofParts_eq_ok {p : Parts} {a : Automaton} (h : ofParts p = .ok a) :
    Parts.readStates (p.names.map (·.1)) = .ok a.states
      ∧ a.names = .tabulate a.states (fun s => Parts.nameOf s p.names)
      ∧ Parts.readStart a.states p.start = .ok a.start
      ∧ Parts.readAccept a.states p.accept = .ok a.accept
      ∧ Parts.readTable a.states (.tabulate a.states fun _ => ∅) p.transitions = .ok a.table
      ∧ readAlphabet p.alphabet = (.ok a.alphabet : Except SymbolError _) := by
  unfold ofParts at h
  by_cases hk : (!p.keysGiven.all Json.isKey) = true
  · simp [hk, throw, throwThe, MonadExceptOf.throw, bind, Except.bind] at h
  · rw [if_neg hk] at h
    obtain ⟨states, hstates, h⟩ := bind_eq_ok.1 h
    obtain ⟨start, hstart, h⟩ := bind_eq_ok.1 h
    obtain ⟨accept, haccept, h⟩ := bind_eq_ok.1 h
    obtain ⟨table, htable, h⟩ := bind_eq_ok.1 h
    obtain ⟨alphabet, halphabet, h⟩ := bind_eq_ok.1 h
    cases h
    exact ⟨hstates, rfl, hstart, haccept, htable, mapError_eq_ok.1 halphabet⟩

theorem Automaton.wellFormed_ofParts {p : Parts} {a : Automaton}
    (h : ofParts p = .ok a) : a.WellFormed := by
  obtain ⟨hstates, hnames, hstart, haccept, htable, halphabet⟩ := ofParts_eq_ok h
  have hover : Parts.TableOver a.states a.table :=
    Parts.readTable_over (Parts.tableOver_tabulate a.states) htable
  exact {
    positive := Parts.readStates_positive hstates
    start_mem := Parts.readStart_mem hstart
    accept_subset := Parts.readAccept_subset haccept
    keys_names := hnames ▸ OrderedMap.keys_tabulate _ _
    keys_table := hover.1
    target_mem := fun o t g hl => (hover.2 o t g hl).1
    label_nonempty := fun o t g hl => (hover.2 o t g hl).2
    alphabet_chars := readAlphabet_chars halphabet }

/-! ## §2. Fresh supplies. -/

/-- No member of a set is greater than its last one. -/
theorem OrderedSet.le_max? {s : StateSet} {m : StateId} (h : s.max? = some m) :
    ∀ x ∈ s, x ≤ m := by
  intro x hx
  have hasc := s.ascending
  unfold max? at h
  obtain ⟨l, hl⟩ := List.getLast?_eq_some_iff.1 h
  have hmem : x ∈ s.toList := hx
  rw [hl] at hasc hmem
  -- The last member comes behind all others.
  obtain hx | hx := List.mem_append.1 hmem
  · exact Int.le_of_lt ((List.pairwise_append.1 hasc).2.2 x hx m (by simp))
  · exact Int.le_of_eq (List.mem_singleton.1 hx)

/-- A supply that starts beyond positive ids is beyond all of them. -/
theorem IdSupply.lt_next_beyond {ids : StateSet} (hpos : ∀ s ∈ ids, 0 < s) :
    ∀ s ∈ ids, s < (beyond ids).next := by
  intro s hs
  unfold beyond
  cases hm : ids.max? with
  | none =>
      have hnil : ids.toList = [] := by
        unfold OrderedSet.max? at hm
        exact List.getLast?_eq_none_iff.1 hm
      have hmem : s ∈ ids.toList := hs
      rw [hnil] at hmem
      exact absurd hmem List.not_mem_nil
  | some m =>
      have hle : s ≤ m := OrderedSet.le_max? hm s hs
      have hlt : (0 : Int) < s := hpos s hs
      -- The next id after a positive one is positive, so the supply starts there.
      have hone : (1 : Int) ≤ m + 1 := by
        unfold StateId at *
        omega
      unfold startingAt?
      rw [Option.getD_some, dif_pos hone]
      exact Int.lt_add_one_of_le hle

theorem Automaton.WellFormed.suppliedBy_fresh {a : Automaton} (h : a.WellFormed) :
    a.SuppliedBy a.freshSupply :=
  ⟨h, IdSupply.lt_next_beyond h.positive⟩

/-! ## §3. Lineages. -/

/-- What an automaton is created from. -/
inductive Origin where
  | nothing
  | parts (parts : Parts)
  | definition (definition : Definition)
  | document (document : Json)

/-- The automaton that is created. -/
def Origin.automaton : Origin → Except LoadError Automaton
  | .nothing => .ok .empty
  | .parts p => (Automaton.ofParts p).mapError .parts
  | .definition d => (Automaton.ofDefinition d).mapError .parts
  | .document v => Automaton.ofDocument v

/-- `InLineage a supply`: `a` belongs to a lineage that has `supply` left. -/
inductive InLineage : Automaton → IdSupply → Prop where
  | created {o : Origin} {a : Automaton} : o.automaton = .ok a →
      InLineage a a.freshSupply
  /-- Other members of the lineage took ids. -/
  | taken {a : Automaton} {supply supply' : IdSupply} : InLineage a supply →
      supply.next ≤ supply'.next → InLineage a supply'
  | edited {a b : Automaton} {supply : IdSupply} {e : Edit} {d : Edited} :
      InLineage a supply → a.edit supply e = .ok d → d.automaton = some b →
      InLineage b d.supply

theorem Automaton.wellFormed_ofDefinition {d : Definition} {a : Automaton}
    (h : ofDefinition d = .ok a) : a.WellFormed := by
  obtain ⟨p, _, hp⟩ := bind_eq_ok.1 h
  exact wellFormed_ofParts hp

theorem Origin.wellFormed {o : Origin} {a : Automaton} (h : o.automaton = .ok a) :
    a.WellFormed := by
  cases o with
  | nothing =>
      cases h
      exact Automaton.wellFormed_empty
  | parts p => exact Automaton.wellFormed_ofParts (mapError_eq_ok.1 h)
  | definition d => exact Automaton.wellFormed_ofDefinition (mapError_eq_ok.1 h)
  | document v =>
      obtain ⟨d, _, hd⟩ := bind_eq_ok.1 h
      exact Automaton.wellFormed_ofDefinition (mapError_eq_ok.1 hd)

/-- **Every member of a lineage is well-formed**, and its states lie below the
ids that the lineage has left. -/
theorem InLineage.suppliedBy {a : Automaton} {supply : IdSupply}
    (h : InLineage a supply) : a.SuppliedBy supply := by
  induction h with
  | created ho => exact (Origin.wellFormed ho).suppliedBy_fresh
  | taken _ hle ih => exact ih.mono hle
  | edited _ he hb ih => exact (ih.edit he).2 _ hb

/-! ## §4. A small lineage. -/

/-- The set of the character `a`. -/
def SymbolSet.letterA : SymbolSet :=
  ⟨.singleton (.char 'a'), fun _ h => OrderedSet.mem_singleton.1 h ▸ rfl⟩

/-- Two states and one edge between them: the word `a` and no other. -/
def Automaton.oneLetter : Automaton where
  start := some 1
  states := .ofList [1, 2]
  names := .ofList [(1, .null), (2, .null)]
  accept := .singleton 2
  table := .ofList [(1, .ofList [(2, .letterA)]), (2, ∅)]
  alphabet := none

/-- The ids that its lineage has left. -/
def IdSupply.afterOneLetter : IdSupply := ⟨3, by decide⟩

theorem inLineage_oneLetter : InLineage .oneLetter .afterOneLetter := by
  have hempty : InLineage .empty .fresh := .created (o := .nothing) rfl
  have hone := hempty.edited (e := .addState .null) rfl rfl
  have htwo := hone.edited (e := .addState .null) rfl rfl
  have hstart := htwo.edited (e := .setStart (.id 1)) rfl rfl
  have haccept := hstart.edited (e := .setAccept (.id 2) true) rfl rfl
  exact haccept.edited (e := .setTransition (.id 1) (.id 2) (.symbols .letterA)) rfl rfl

end FiniteAutomata
