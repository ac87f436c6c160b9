/-
  FiniteAutomata.Proofs.Reading
  ─────────────────────────────
  **WHAT A DEFINITION IS READ AS.**

  A definition speaks of states by index, and `idAt` gives the state at an index
  its id.  If all its indices lie below its count and all its texts can be read,
  then it is read as an automaton, and `Definition.Describes` says which one:
  every part of the automaton in terms of the definition, without any row or
  table on the way.

      readTransitions_ok     one row, transitions to one target merged
      ofParts_ok             parts whose ids are all known
      SameContent.describes  a definition that says the same describes the same
      ofDefinition_ok        the whole definition
-/
import FiniteAutomata.Proofs.Lineage
import FiniteAutomata.Proofs.Path
import Mathlib.Data.List.Basic

namespace FiniteAutomata

/-- Reads that succeed one by one succeed in a row. -/
theorem mapM_ok {ε α β : Type} {f : α → Except ε β} {g : α → β} {l : List α}
    (h : ∀ x ∈ l, f x = .ok (g x)) : l.mapM f = .ok (l.map g) := by
  induction l with
  | nil => rfl
  | cons x l ih =>
      have hrest := ih fun y hy => h y (List.mem_cons_of_mem x hy)
      rw [List.mapM_cons, h x List.mem_cons_self, hrest]
      rfl

/-- The results are those of one function, whichever they are. -/
theorem exists_mapM_ok {ε α β : Type} [Inhabited β] {f : α → Except ε β} {l : List α}
    (h : ∀ x ∈ l, ∃ y, f x = .ok y) :
    ∃ g : α → β, l.mapM f = .ok (l.map g) ∧ ∀ x ∈ l, f x = .ok (g x) := by
  -- What an element is read as is a function of the element, failures filled in.
  have hg : ∀ x ∈ l, f x = .ok ((f x).toOption.getD default) := by
    intro x hx
    obtain ⟨y, hy⟩ := h x hx
    rw [hy]
    rfl
  exact ⟨_, mapM_ok hg, hg⟩

/-! ## §1. Ids of indices. -/

namespace Automaton

theorem idAt_inj {i j : Nat} : idAt i = idAt j ↔ i = j := by
  unfold idAt StateId
  omega

theorem idAt_pos (i : Nat) : 0 < idAt i := by
  unfold idAt StateId
  omega

end Automaton

/-! ## §2. Rows. -/

/-- The text lists the symbol. -/
def SymbolSet.Lists (text : String) (x : Symbol) : Prop :=
  ∃ g, SymbolSet.read text = .ok g ∧ x ∈ g

theorem SymbolSet.lists_of_read {text : String} {g : SymbolSet}
    (h : SymbolSet.read text = .ok g) {x : Symbol} : Lists text x ↔ x ∈ g := by
  constructor
  · intro hx
    obtain ⟨g', hg', hx⟩ := hx
    rw [h] at hg'
    injection hg' with hg'
    exact hg' ▸ hx
  · exact fun hx => ⟨g, h, hx⟩

namespace Automaton

/-- Further transitions add their symbols to the row. -/
theorem readTransitions_ok {r : Row} {l : List Transition}
    (h : ∀ e ∈ l, ∃ g, SymbolSet.read e.2 = .ok g) :
    ∃ r', readTransitions r l = .ok r'
      ∧ (∀ q x, x ∈ r'.getD q ∅ ↔
          x ∈ r.getD q ∅ ∨ ∃ e ∈ l, q = idAt e.1 ∧ SymbolSet.Lists e.2 x)
      ∧ ∀ q g, r'.get? q = some g →
          (∃ g', r.get? q = some g') ∨ ∃ e ∈ l, q = idAt e.1 := by
  induction l generalizing r with
  | nil => exact ⟨r, rfl, by simp, fun q g hg => Or.inl ⟨g, hg⟩⟩
  | cons e l ih =>
      obtain ⟨target, text⟩ := e
      obtain ⟨g, hg⟩ := h _ List.mem_cons_self
      obtain ⟨r', hr', hmem, hkeys⟩ := ih fun e he => h e (List.mem_cons_of_mem _ he)
      refine ⟨r', ?_, ?_, ?_⟩
      · rw [readTransitions, hg]
        exact hr'
      · intro q x
        simp only [hmem, List.mem_cons, exists_eq_or_imp]
        rw [← or_assoc, SymbolSet.lists_of_read hg]
        -- The label of the first transition is merged with what was there.
        refine or_congr_left ?_
        unfold OrderedMap.getD
        rw [OrderedMap.get?_insert]
        by_cases hq : q = idAt target
        · subst hq
          simp
        · simp [hq]
      · intro q g' hq
        obtain ⟨g'', hq⟩ | ⟨e, he, hq⟩ := hkeys q g' hq
        · rw [OrderedMap.get?_insert] at hq
          by_cases hqt : q = idAt target
          · exact Or.inr ⟨_, List.mem_cons_self, hqt⟩
          · rw [if_neg hqt] at hq
            exact Or.inl ⟨g'', hq⟩
        · exact Or.inr ⟨e, List.mem_cons_of_mem _ he, hq⟩

end Automaton

/-! ## §3. Parts whose ids are known. -/

namespace Parts

theorem find?_int {states : StateSet} {s : StateId} (h : s ∈ states) :
    find? states (.int s) = some s := by
  simp [find?, Json.toInt?, h]

theorem readStates_ok {l : List StateId} (h : ∀ s ∈ l, 0 < s) :
    readStates (l.map .int) = .ok (OrderedSet.ofList l) := by
  induction l with
  | nil => rfl
  | cons s l ih =>
      have hpos : ¬ s ≤ 0 := Int.not_le.2 (h s List.mem_cons_self)
      have hrest := ih fun q hq => h q (List.mem_cons_of_mem s hq)
      rw [List.map_cons, readStates]
      simp only [Json.asInt?, Json.toInt?, if_neg hpos, hrest]
      rfl

/-- The name given for an index is the name of the state at the index. -/
theorem nameOf_idAt (name : Nat → Json) {l : List Nat} {i : Nat} (hi : i ∈ l) :
    nameOf (Automaton.idAt i) (l.map fun i => (.int (Automaton.idAt i), name i)) = name i := by
  induction l with
  | nil => exact absurd hi List.not_mem_nil
  | cons j l ih =>
      rw [List.map_cons, nameOf]
      simp only [Json.asInt?, Json.toInt?, Option.some.injEq, Automaton.idAt_inj]
      by_cases hj : j = i
      · rw [if_pos hj, hj]
      · rw [if_neg hj]
        exact ih ((List.mem_cons.1 hi).resolve_left fun e => hj e.symm)

theorem readStart_ok {states : StateSet} {s : StateId} (hpos : 0 < s) (hs : s ∈ states) :
    readStart states (.int s) = .ok (some s) := by
  have hne : s ≠ 0 := fun e => Int.lt_irrefl _ (e ▸ hpos)
  unfold readStart
  simp [find?_int hs, Json.toInt?, Json.isKey, hne]

theorem readAccept_ok {states : StateSet} {l : List StateId} (h : ∀ s ∈ l, s ∈ states) :
    readAccept states (l.map .int) = .ok (OrderedSet.ofList l) := by
  have hkeys : ¬ (!(l.map Json.int).all Json.isKey) = true := by
    simp [Json.isKey]
  -- No id is reported as unknown.
  have hknown : (l.map Json.int).filter (fun id => (find? states id).isNone) = [] := by
    rw [List.filter_eq_nil_iff]
    intro id hid
    obtain ⟨s, hs, rfl⟩ := List.mem_map.1 hid
    simp [find?_int (h s hs)]
  have hfound : (l.map Json.int).filterMap (find? states) = l := by
    rw [List.filterMap_map]
    exact (List.filterMap_congr fun s hs => find?_int (h s hs)).trans List.filterMap_some
  unfold readAccept
  rw [if_neg hkeys, hknown]
  dsimp only
  rw [hfound]

theorem readRow_cons {states : StateSet} {t : StateId} (ht : t ∈ states) (r : Row)
    (g : SymbolSet) (rest : List (Json × Label)) :
    readRow states r ((.int t, .symbols g) :: rest)
      = readRow states (if g.isEmpty then r else r.insert t g) rest := by
  rw [readRow, find?_int ht]
  rfl

/-- Edges of one row, all of whose targets are states. -/
theorem readRow_ok {states : StateSet} {r r₀ : Row} {l : List (StateId × SymbolSet)}
    (hl : ∀ e ∈ l, e.1 ∈ states ∧ r.get? e.1 = some e.2)
    (h₀ : ∀ q g, r₀.get? q = some g → r.get? q = some g) :
    ∃ r', readRow states r₀ (l.map fun e => (.int e.1, .symbols e.2)) = .ok r'
      ∧ ∀ q g, r'.get? q = some g ↔ r₀.get? q = some g ∨ (q, g) ∈ l ∧ g ≠ ∅ := by
  induction l generalizing r₀ with
  | nil => exact ⟨r₀, rfl, by simp⟩
  | cons e l ih =>
      obtain ⟨t, g⟩ := e
      obtain ⟨ht, hr⟩ := hl _ List.mem_cons_self
      have hrest := fun e he => hl e (List.mem_cons_of_mem (t, g) he)
      by_cases hg : g = ∅
      · obtain ⟨r', hr', hget⟩ := ih hrest h₀
        refine ⟨r', ?_, ?_⟩
        · rw [List.map_cons, readRow_cons ht, if_pos (SymbolSet.isEmpty_iff.2 hg)]
          exact hr'
        · intro q g'
          -- An entry that matches nothing is passed over.
          have hskip : ¬ ((q, g') = (t, g) ∧ g' ≠ ∅) := by
            intro h
            obtain ⟨heq, hne⟩ := h
            injection heq with _ heq
            exact hne (heq.trans hg)
          rw [hget, List.mem_cons, or_and_right, or_iff_right hskip]
      · have hinsert : ∀ q g', (r₀.insert t g).get? q = some g' ↔
            r₀.get? q = some g' ∨ q = t ∧ g' = g := by
          intro q g'
          refine OrderedMap.get?_insert_eq_some_iff fun g' h => ?_
          exact Option.some_inj.1 ((h₀ t g' h).symm.trans hr)
        -- What was read so far stays within the row, so no entry is overwritten.
        have hwithin : ∀ q g', (r₀.insert t g).get? q = some g' → r.get? q = some g' := by
          intro q g' h
          obtain h | ⟨hq, hg'⟩ := (hinsert q g').1 h
          · exact h₀ q g' h
          · rw [hq, hg']
            exact hr
        obtain ⟨r', hr', hget⟩ := ih hrest hwithin
        refine ⟨r', ?_, ?_⟩
        · rw [List.map_cons, readRow_cons ht, if_neg fun e => hg (SymbolSet.isEmpty_iff.1 e)]
          exact hr'
        · intro q g'
          have hadd : q = t ∧ g' = g → g' ≠ ∅ := fun heq => heq.2 ▸ hg
          rw [hget, hinsert, List.mem_cons, Prod.mk.injEq, or_assoc, or_and_right,
            and_iff_left_of_imp hadd]

/-- Rows for states, all of whose targets are states. -/
theorem readTable_ok {states : StateSet} {rows : Nat → Row} {t₀ : Table} {l : List Nat}
    (hl : ∀ i ∈ l, Automaton.idAt i ∈ states
      ∧ ∀ q g, (rows i).get? q = some g → q ∈ states)
    (h₀ : ∀ i q g, t₀.label? (Automaton.idAt i) q = some g → (rows i).get? q = some g) :
    ∃ t, readTable states t₀ (l.map fun i => (.int (Automaton.idAt i),
          (rows i).entries.map fun e => (.int e.1, .symbols e.2))) = .ok t
      ∧ ∀ p q g, t.label? p q = some g ↔ t₀.label? p q = some g
          ∨ ∃ i ∈ l, p = Automaton.idAt i ∧ (rows i).get? q = some g ∧ g ≠ ∅ := by
  induction l generalizing t₀ with
  | nil => exact ⟨t₀, rfl, by simp⟩
  | cons i l ih =>
      obtain ⟨hi, htargets⟩ := hl i List.mem_cons_self
      have hentries : ∀ e ∈ (rows i).entries,
          e.1 ∈ states ∧ (rows i).get? e.1 = some e.2 := by
        intro e he
        have hget := OrderedMap.get?_eq_some_iff.2 he
        exact ⟨htargets _ _ hget, hget⟩
      obtain ⟨r, hr, hget⟩ := readRow_ok hentries (h₀ i)
      have hinsert : ∀ p q g, Table.label? (t₀.insert (Automaton.idAt i) r) p q = some g ↔
          t₀.label? p q = some g
            ∨ p = Automaton.idAt i ∧ (rows i).get? q = some g ∧ g ≠ ∅ := by
        intro p q g
        rw [Table.label?_insert]
        by_cases hp : p = Automaton.idAt i
        · subst hp
          rw [if_pos rfl, hget, ← OrderedMap.get?_eq_some_iff]
          simp [Table.label?]
        · simp [hp]
      -- The same for the rows read so far, of which one index may have several.
      have hwithin : ∀ j q g, Table.label? (t₀.insert (Automaton.idAt i) r) (Automaton.idAt j) q
          = some g → (rows j).get? q = some g := by
        intro j q g h
        obtain h | ⟨hj, h, _⟩ := (hinsert _ q g).1 h
        · exact h₀ j q g h
        · rw [Automaton.idAt_inj] at hj
          exact hj ▸ h
      obtain ⟨t, ht, hlabel⟩ := ih (fun j hj => hl j (List.mem_cons_of_mem i hj)) hwithin
      refine ⟨t, ?_, ?_⟩
      · rw [List.map_cons, readTable]
        simp only [find?_int hi]
        rw [hr]
        exact ht
      · intro p q g
        rw [hlabel, hinsert, or_assoc]
        simp only [List.mem_cons, exists_eq_or_imp]

/-- Rows for states, read into a table that has none yet. -/
theorem readTable_tabulate_ok {states : StateSet} {rows : Nat → Row} {l : List Nat}
    (hl : ∀ i ∈ l, Automaton.idAt i ∈ states
      ∧ ∀ q g, (rows i).get? q = some g → q ∈ states) :
    ∃ t, readTable states (.tabulate states fun _ => ∅) (l.map fun i =>
          (.int (Automaton.idAt i),
            (rows i).entries.map fun e => (.int e.1, .symbols e.2))) = .ok t
      ∧ ∀ p q g, t.label? p q = some g ↔
          ∃ i ∈ l, p = Automaton.idAt i ∧ (rows i).get? q = some g ∧ g ≠ ∅ := by
  have hnone : ∀ p q g, Table.label? (.tabulate states fun _ => ∅) p q ≠ some g := by
    intro p q g hl
    rw [label?_tabulate] at hl
    cases hl
  obtain ⟨t, ht, hlabel⟩ := readTable_ok hl fun i q g h => absurd h (hnone _ q g)
  refine ⟨t, ht, ?_⟩
  intro p q g
  rw [hlabel, or_iff_right (hnone p q g)]

end Parts

/-! ## §4. Definitions. -/

namespace Definition

/-- A definition can be read if its indices lie below its count and its texts list
symbols. -/
structure Readable (d : Definition) : Prop where
  accept_lt : ∀ i ∈ d.accept, i < d.count
  target_lt : ∀ i < d.count, ∀ e ∈ d.row i, e.1 < d.count
  texts : ∀ i < d.count, ∀ e ∈ d.row i, ∃ g, SymbolSet.read e.2 = .ok g
  alphabet : ∀ text, d.alphabet = some text → ∃ g, SymbolSet.read text = .ok g

/-- What a definition says of an automaton, its states by index. -/
structure Describes (d : Definition) (f : Automaton) : Prop where
  start_eq : f.start = if d.count = 0 then none else some (Automaton.idAt 0)
  mem_states : ∀ {q}, q ∈ f.states ↔ ∃ i < d.count, q = Automaton.idAt i
  names : ∀ q n, f.names.get? q = some n ↔
    ∃ i < d.count, q = Automaton.idAt i ∧ n = d.name i
  accept : ∀ q, q ∈ f.accept ↔ ∃ i ∈ d.accept, q = Automaton.idAt i
  carries : ∀ p q x, f.table.Carries p q x ↔ ∃ i < d.count, p = Automaton.idAt i
    ∧ ∃ e ∈ d.row i, q = Automaton.idAt e.1 ∧ SymbolSet.Lists e.2 x
  alphabet_none : d.alphabet = none → f.alphabet = none
  alphabet_some : ∀ text, d.alphabet = some text →
    ∃ g, SymbolSet.read text = .ok g ∧ f.alphabet = some g.withoutEmpty

/-- The states that are read have the ids from one up to the count. -/
theorem Describes.mem_states_iff {d : Definition} {f : Automaton} (h : d.Describes f)
    {q : StateId} : q ∈ f.states ↔ 1 ≤ q ∧ q ≤ d.count := by
  rw [h.mem_states]
  unfold Automaton.idAt StateId
  constructor
  · intro hq
    obtain ⟨i, hi, hq⟩ := hq
    omega
  · intro hq
    exact ⟨(q - 1).toNat, by omega, by omega⟩

/-- The other definition says the same.  How often it lists something is left open, as
is the order in which transitions and accepting indices come, and so are names and rows
behind the count. -/
structure SameContent (d d' : Definition) : Prop where
  count_eq : d'.count = d.count
  name_eq : ∀ i < d.count, d'.name i = d.name i
  mem_accept : ∀ i, i ∈ d'.accept ↔ i ∈ d.accept
  mem_row : ∀ i < d.count, ∀ e, e ∈ d'.row i ↔ e ∈ d.row i
  alphabet_eq : d'.alphabet = d.alphabet

/-- Rows with the same members, index by index. -/
theorem mem_getD_of_forall₂ {α : Type} {l l' : List (List α)}
    (h : List.Forall₂ (fun r r' => ∀ e, e ∈ r' ↔ e ∈ r) l l') (i : Nat) (e : α) :
    e ∈ l'.getD i [] ↔ e ∈ l.getD i [] := by
  induction h generalizing i with
  | nil => exact Iff.rfl
  | cons hr _ ih =>
      cases i with
      | zero => exact hr e
      | succ i => exact ih i

/-- Accepting indices and transitions may be repeated and come in any order. -/
theorem sameContent_of_members {d : Definition} {accept : List Nat}
    {transitions : List (List Transition)} (haccept : ∀ i, i ∈ accept ↔ i ∈ d.accept)
    (hrows : List.Forall₂ (fun r r' => ∀ e, e ∈ r' ↔ e ∈ r) d.transitions transitions) :
    d.SameContent { d with accept := accept, transitions := transitions } where
  count_eq := rfl
  name_eq _ _ := rfl
  mem_accept := haccept
  mem_row i _ := mem_getD_of_forall₂ hrows i
  alphabet_eq := rfl

namespace SameContent

variable {d d' : Definition}

theorem readable (hsame : d.SameContent d') (h : d.Readable) : d'.Readable where
  accept_lt i hi := by
    rw [hsame.count_eq]
    exact h.accept_lt i ((hsame.mem_accept i).1 hi)
  target_lt i hi e he := by
    rw [hsame.count_eq] at hi ⊢
    exact h.target_lt i hi e ((hsame.mem_row i hi e).1 he)
  texts i hi e he := by
    rw [hsame.count_eq] at hi
    exact h.texts i hi e ((hsame.mem_row i hi e).1 he)
  alphabet text htext := h.alphabet text (hsame.alphabet_eq ▸ htext)

theorem describes (hsame : d.SameContent d') {f : Automaton} (h : d.Describes f) :
    d'.Describes f where
  start_eq := by rw [h.start_eq, hsame.count_eq]
  mem_states {q} := by rw [h.mem_states, hsame.count_eq]
  names q n := by
    rw [h.names, hsame.count_eq]
    refine exists_congr fun i => and_congr_right fun hi => ?_
    rw [hsame.name_eq i hi]
  accept q := by
    rw [h.accept]
    simp only [hsame.mem_accept]
  carries p q x := by
    rw [h.carries, hsame.count_eq]
    refine exists_congr fun i => and_congr_right fun hi => ?_
    simp only [hsame.mem_row i hi]
  alphabet_none hnone := h.alphabet_none (hsame.alphabet_eq ▸ hnone)
  alphabet_some text htext := h.alphabet_some text (hsame.alphabet_eq ▸ htext)

end SameContent

end Definition

namespace Automaton

/-- Reading a text that lists symbols as an alphabet drops the empty symbol. -/
theorem readAlphabet_ok {text? : Option String}
    (h : ∀ text, text? = some text → ∃ g, SymbolSet.read text = .ok g) :
    ∃ alphabet, readAlphabet (text?.map .text) = .ok alphabet
      ∧ (text? = none → alphabet = none)
      ∧ ∀ text, text? = some text →
          ∃ g, SymbolSet.read text = .ok g ∧ alphabet = some g.withoutEmpty := by
  cases text? with
  | none => exact ⟨none, rfl, fun _ => rfl, nofun⟩
  | some text =>
      obtain ⟨g, hg⟩ := h text rfl
      refine ⟨some g.withoutEmpty, ?_, nofun, ?_⟩
      · show (SymbolSet.read text >>= fun s => .ok (some s.withoutEmpty)) = _
        rw [hg]
        rfl
      · intro text' htext
        injection htext with htext
        exact ⟨g, htext ▸ hg, rfl⟩

theorem ofParts_ok {p : Parts} {a : Automaton} (hkeys : p.keysGiven.all Json.isKey = true)
    (hstates : Parts.readStates (p.names.map (·.1)) = .ok a.states)
    (hnames : .tabulate a.states (fun s => Parts.nameOf s p.names) = a.names)
    (hstart : Parts.readStart a.states p.start = .ok a.start)
    (haccept : Parts.readAccept a.states p.accept = .ok a.accept)
    (htable : Parts.readTable a.states (.tabulate a.states fun _ => ∅) p.transitions = .ok a.table)
    (halphabet : readAlphabet p.alphabet = .ok a.alphabet) : ofParts p = .ok a := by
  unfold ofParts
  rw [hkeys, hstates]
  simp only [Bool.not_true, Bool.false_eq_true, if_false, bind, Except.bind, pure, Except.pure,
    hstart, haccept, htable, halphabet, hnames]
  rfl

/-- The parts of a definition whose rows have been read. -/
def partsWith (d : Definition) (rows : Nat → Row) : Parts where
  names := (List.range d.count).map fun i => (.int (idAt i), d.name i)
  transitions := (List.range d.count).map fun i =>
    (.int (idAt i), (rows i).entries.map fun e => (.int e.1, .symbols e.2))
  start := .int (if d.count = 0 then 0 else 1)
  accept := d.accept.map fun i => .int (idAt i)
  alphabet := d.alphabet.map .text

theorem keysGiven_partsWith (d : Definition) (rows : Nat → Row) :
    (partsWith d rows).keysGiven.all Json.isKey = true := by
  unfold Parts.keysGiven partsWith
  simp [Json.isKey, List.all_flatMap]

/-- The states of a definition: one for each index. -/
def statesOf (d : Definition) : StateSet := .ofList ((List.range d.count).map idAt)

theorem mem_statesOf {d : Definition} {q : StateId} :
    q ∈ statesOf d ↔ ∃ i < d.count, q = idAt i := by
  unfold statesOf
  simp [eq_comm]

theorem readStates_partsWith (d : Definition) (rows : Nat → Row) :
    Parts.readStates ((partsWith d rows).names.map (·.1)) = .ok (statesOf d) := by
  have hpos : ∀ s ∈ (List.range d.count).map idAt, 0 < s := by
    intro s hs
    obtain ⟨i, _, rfl⟩ := List.mem_map.1 hs
    exact idAt_pos i
  have hids : (partsWith d rows).names.map (·.1) = ((List.range d.count).map idAt).map .int := by
    unfold partsWith
    rw [List.map_map, List.map_map]
    rfl
  rw [hids]
  exact Parts.readStates_ok hpos

/-- The names that are given for the states are those of the indices. -/
theorem get?_names_partsWith {d : Definition} {rows : Nat → Row} {q : StateId} {n : Json} :
    OrderedMap.get? (.tabulate (statesOf d) fun s => Parts.nameOf s (partsWith d rows).names) q
      = some n ↔ ∃ i < d.count, q = idAt i ∧ n = d.name i := by
  have hname : ∀ i < d.count, Parts.nameOf (idAt i) (partsWith d rows).names = d.name i :=
    fun i hi => Parts.nameOf_idAt d.name (List.mem_range.2 hi)
  rw [OrderedMap.get?_tabulate]
  constructor
  · intro hn
    by_cases hq : q ∈ statesOf d
    · rw [if_pos hq] at hn
      injection hn with hn
      obtain ⟨i, hi, rfl⟩ := mem_statesOf.1 hq
      exact ⟨i, hi, rfl, hn.symm.trans (hname i hi)⟩
    · simp [hq] at hn
  · intro hn
    obtain ⟨i, hi, rfl, rfl⟩ := hn
    rw [if_pos (mem_statesOf.2 ⟨i, hi, rfl⟩), hname i hi]

/-- What the transitions from an index are read as. -/
structure RowOf (d : Definition) (i : Nat) (r : Row) : Prop where
  symbols : ∀ q x, (∃ g, r.get? q = some g ∧ x ∈ g) ↔
    ∃ e ∈ d.row i, q = idAt e.1 ∧ SymbolSet.Lists e.2 x
  targets : ∀ q g, r.get? q = some g → ∃ e ∈ d.row i, q = idAt e.1

theorem partsOf_ok {d : Definition}
    (h : ∀ i < d.count, ∀ e ∈ d.row i, ∃ g, SymbolSet.read e.2 = .ok g) :
    ∃ rows : Nat → Row, partsOf d = .ok (partsWith d rows)
      ∧ ∀ i < d.count, RowOf d i (rows i) := by
  have hread : ∀ i ∈ List.range d.count, ∃ r, readTransitions ∅ (d.row i) = .ok r := by
    intro i hi
    obtain ⟨r, hr, _⟩ := readTransitions_ok (h i (List.mem_range.1 hi))
    exact ⟨r, hr⟩
  obtain ⟨rows, hrows, heach⟩ := exists_mapM_ok hread
  have hzip : (List.range d.count).zip ((List.range d.count).map rows)
      = (List.range d.count).map fun i => (i, rows i) := by
    rw [← List.zip_map', List.map_id']
  refine ⟨rows, ?_, ?_⟩
  · unfold partsOf
    dsimp only
    rw [hrows]
    -- The rows are read before the parts are put together.
    show Except.ok (Parts.mk _ _ _ _ _) = Except.ok (Parts.mk _ _ _ _ _)
    rw [hzip, List.map_map]
    rfl
  · intro i hi
    obtain ⟨r, hr, hsymbols, htargets⟩ := readTransitions_ok (r := ∅) (h i hi)
    rw [heach i (List.mem_range.2 hi)] at hr
    injection hr with hr
    subst hr
    refine ⟨?_, ?_⟩
    · intro q x
      rw [← SymbolSet.mem_getD]
      exact (hsymbols q x).trans (or_iff_right (SymbolSet.not_mem_nothing x))
    · intro q g hq
      simpa using htargets q g hq

/-- A table of the rows has the symbols that the definition lists. -/
theorem carries_of_rows {d : Definition} {rows : Nat → Row} {t : Table}
    (hrows : ∀ i < d.count, RowOf d i (rows i))
    (hlabel : ∀ p q g, t.label? p q = some g ↔
      ∃ i ∈ List.range d.count, p = idAt i ∧ (rows i).get? q = some g ∧ g ≠ ∅)
    {p q : StateId} {x : Symbol} : t.Carries p q x ↔ ∃ i < d.count, p = idAt i
      ∧ ∃ e ∈ d.row i, q = idAt e.1 ∧ SymbolSet.Lists e.2 x := by
  constructor
  · intro hx
    obtain ⟨g, hg, hx⟩ := hx
    obtain ⟨i, hi, hp, hget, _⟩ := (hlabel p q g).1 hg
    have hlt := List.mem_range.1 hi
    exact ⟨i, hlt, hp, ((hrows i hlt).symbols q x).1 ⟨g, hget, hx⟩⟩
  · intro hx
    obtain ⟨i, hi, hp, hlists⟩ := hx
    obtain ⟨g, hget, hx⟩ := ((hrows i hi).symbols q x).2 hlists
    have hne : g ≠ ∅ := SymbolSet.ne_nothing_of_mem hx
    exact ⟨g, (hlabel p q g).2 ⟨i, List.mem_range.2 hi, hp, hget, hne⟩, hx⟩

/-- **A readable definition is read**, as the automaton that it describes. -/
theorem ofDefinition_ok {d : Definition} (h : d.Readable) :
    ∃ f, ofDefinition d = .ok f ∧ d.Describes f := by
  obtain ⟨rows, hparts, hrows⟩ := partsOf_ok h.texts
  have hstates : ∀ i < d.count, idAt i ∈ statesOf d := fun i hi => mem_statesOf.2 ⟨i, hi, rfl⟩
  have htargets : ∀ i ∈ List.range d.count, idAt i ∈ statesOf d
      ∧ ∀ q g, (rows i).get? q = some g → q ∈ statesOf d := by
    intro i hi
    have hlt := List.mem_range.1 hi
    refine ⟨hstates i hlt, ?_⟩
    intro q g hq
    obtain ⟨e, he, rfl⟩ := (hrows i hlt).targets q g hq
    exact hstates _ (h.target_lt i hlt e he)
  obtain ⟨table, htable, hlabel⟩ := Parts.readTable_tabulate_ok htargets
  obtain ⟨alphabet, halphabet, hnone, hsome⟩ := readAlphabet_ok h.alphabet
  -- Each check of the parts gives one component of the automaton.
  let f : Automaton := {
    start := if d.count = 0 then none else some (idAt 0)
    states := statesOf d
    table, alphabet
    names := .tabulate (statesOf d) fun s => Parts.nameOf s (partsWith d rows).names
    accept := OrderedSet.ofList (d.accept.map idAt) }
  have hstart : Parts.readStart f.states (partsWith d rows).start = .ok f.start := by
    show Parts.readStart (statesOf d) (.int (if d.count = 0 then 0 else 1))
      = .ok (if d.count = 0 then none else some (idAt 0))
    by_cases hc : d.count = 0
    · rw [if_pos hc, if_pos hc]
      rfl
    · rw [if_neg hc, if_neg hc]
      exact Parts.readStart_ok (idAt_pos 0) (hstates 0 (Nat.pos_of_ne_zero hc))
  have haccept : Parts.readAccept f.states (partsWith d rows).accept = .ok f.accept := by
    have hknown : ∀ s ∈ d.accept.map idAt, s ∈ statesOf d := by
      intro s hs
      obtain ⟨i, hi, rfl⟩ := List.mem_map.1 hs
      exact hstates i (h.accept_lt i hi)
    have hread := Parts.readAccept_ok hknown
    rw [List.map_map] at hread
    exact hread
  refine ⟨f, ?_, ?_⟩
  · unfold ofDefinition
    rw [hparts]
    exact ofParts_ok (keysGiven_partsWith d rows) (readStates_partsWith d rows) rfl hstart
      haccept htable halphabet
  · refine ⟨rfl, mem_statesOf, fun _ _ => get?_names_partsWith, ?_, ?_, hnone, hsome⟩
    · intro q
      show q ∈ OrderedSet.ofList (d.accept.map idAt) ↔ _
      simp [eq_comm]
    · exact fun p q x => carries_of_rows hrows hlabel

end Automaton

end FiniteAutomata
