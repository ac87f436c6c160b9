/-
  FiniteAutomata.Proofs.Validation
  ────────────────────────────────
  **A DEFINITION THAT COMES FROM A DOCUMENT OBEYS THE RULES.**

  A document may hold any values.  Its count and its accepting indices are converted
  to integers before the rules are checked, but a target is checked as it was given,
  be it a fraction or a truth value, and converted afterwards.  Whatever passes is
  within the bounds after its conversion too:

      exists_toInteger_of_isIndex   a number that is an index is cut off to one
      Draft.Gives                   a definition that takes its fields over as they are
      exists_gives_of_ofJson        so do definitions from documents, and they obey the rules

  Beyond the rules only texts can keep a definition from being read as an automaton:

      readRows_cases                the rows are read, or one of their texts cannot be
      ofDefinition_eq_bind          the alphabet is read last
      ofDefinition_cases            the definition is read, or one of its texts cannot be
      ofJson_obeys                  both for any document
      ofJson_toJson_of_ofJson       what has been converted once is not changed again
-/
import FiniteAutomata.Proofs.Documents

namespace FiniteAutomata

/-- Steps in a row all succeed, or one of them fails and is what the row fails of. -/
theorem mapM_cases {ε α β : Type} (f : α → Except ε β) (l : List α) :
    (∃ l', l.mapM f = .ok l' ∧ List.Forall₂ (fun x y => f x = .ok y) l l')
      ∨ ∃ x ∈ l, ∃ err, f x = .error err ∧ l.mapM f = .error err := by
  induction l with
  | nil => exact Or.inl ⟨[], rfl, .nil⟩
  | cons x l ih =>
      rw [List.mapM_cons]
      cases hx : f x with
      | error err => exact Or.inr ⟨x, List.mem_cons_self, err, hx, rfl⟩
      | ok y =>
          obtain ⟨l', hl, hall⟩ | ⟨x', hx', err, herr, hl⟩ := ih
          · rw [hl]
            exact Or.inl ⟨y :: l', rfl, .cons hx hall⟩
          · rw [hl]
            exact Or.inr ⟨x', List.mem_cons_of_mem x hx', err, herr, rfl⟩

theorem forall₂_of_mapM_eq_ok {ε α β : Type} {f : α → Except ε β} {l : List α} {l' : List β}
    (h : l.mapM f = .ok l') : List.Forall₂ (fun x y => f x = .ok y) l l' := by
  obtain ⟨l'', hl, hall⟩ | ⟨_, _, _, _, hl⟩ := mapM_cases f l
  · cases hl.symm.trans h
    exact hall
  · cases hl.symm.trans h

/-- What each element stands in relation to has the property. -/
theorem forall_mem_of_forall₂ {α β : Type} {R : α → β → Prop} {p : β → Prop} {l : List α}
    {l' : List β} (h : List.Forall₂ R l l') (hp : ∀ x y, R x y → p y) : ∀ y ∈ l', p y := by
  have hboth : List.Forall₂ (fun y x => p y ∧ R x y) l' l :=
    h.flip.imp fun y x hxy => ⟨hp x y hxy, hxy⟩
  exact ((List.forall₂_and_left l' l).1 hboth).1

/-! ## §1. Indices among numbers. -/

theorem Binary64.exists_ratio? (negative : Bool) (m : Nat) (e : Int) :
    ∃ num den, (Binary64.finite negative m e).ratio? = some (num, den) := by
  cases e with
  | ofNat k => exact ⟨_, _, rfl⟩
  | negSucc k => exact ⟨_, _, rfl⟩

/-- A quotient between bounds stays between them when it is cut off. -/
theorem tdiv_between {num count : Int} {den : Nat} (hnum : 0 ≤ num) (hlt : num < count * den) :
    0 ≤ num.tdiv den ∧ num.tdiv den < count := by
  have hden : (0 : Int) < den := by
    by_contra hnot
    have hzero : (den : Int) = 0 := by omega
    rw [hzero] at hlt
    omega
  rw [Int.tdiv_eq_ediv_of_nonneg hnum]
  exact ⟨Int.ediv_nonneg hnum (Int.le_of_lt hden), Int.ediv_lt_of_lt_mul hden hlt⟩

namespace Definition

variable {d : Definition}

theorem compared_eq_ok {answer : Option Bool} {b : Bool} :
    compared answer = .ok b ↔ answer = some b := by
  cases answer <;> simp [compared]

theorem elementsOf_eq_ok {v : Json} {l : List Json} :
    elementsOf v = .ok l ↔ v.elements? = some l := by
  unfold elementsOf
  cases v.elements? <;> simp

theorem isIndex_eq_true {count v : Json} (h : isIndex count v = .ok true) :
    Json.atMost? (.int 0) v = some true ∧ v.less? count = some true := by
  obtain ⟨b, hleast, h⟩ := bind_eq_ok.1 h
  cases b with
  | false => cases h
  | true => exact ⟨compared_eq_ok.1 hleast, compared_eq_ok.1 h⟩

/-- A number that is compared with integers has a value that is cut off for its
integer, unless it is infinite, and then it is not below the count. -/
theorem exists_ratio_of_isIndex {count : Int} {v : Json}
    (h : isIndex (.int count) v = .ok true) :
    ∃ num den, v.quantity? = some (.ratio num den) ∧ v.toInteger = .ok (num.tdiv den) := by
  obtain ⟨hleast, hless⟩ := isIndex_eq_true h
  cases v with
  | null | str _ | arr _ | obj _ => cases hless
  | bool b => exact ⟨_, 1, rfl, congrArg Except.ok (Int.tdiv_one _).symm⟩
  | int n => exact ⟨n, 1, rfl, congrArg Except.ok (Int.tdiv_one n).symm⟩
  | float x =>
      cases x with
      | nan => cases hless
      | infinite negative =>
          -- What is at least zero is the greater infinity, which is below nothing.
          cases negative with
          | true => cases hleast
          | false => cases hless
      | finite negative m e =>
          obtain ⟨num, den, hratio⟩ := Binary64.exists_ratio? negative m e
          refine ⟨num, den, ?_, ?_⟩
          · show (Binary64.ratio? _).map _ = _
            rw [hratio]
            rfl
          · show Except.ok ((Binary64.truncate? _).getD 0) = _
            rw [Binary64.truncate?, hratio]
            rfl

/-- **A number that is an index is cut off to an index.** -/
theorem exists_toInteger_of_isIndex {count : Int} {v : Json}
    (h : isIndex (.int count) v = .ok true) :
    ∃ i : Nat, v.toInteger = .ok (i : Int) ∧ (i : Int) < count := by
  obtain ⟨num, den, hquantity, hinteger⟩ := exists_ratio_of_isIndex h
  obtain ⟨hleast, hless⟩ := isIndex_eq_true h
  unfold Json.atMost? at hleast
  unfold Json.less? at hless
  rw [hquantity] at hleast hless
  have hnum : 0 ≤ num := by
    simpa [Json.quantity?, Json.Quantity.isAtMost] using hleast
  have hlt : num < count * den := by
    simpa [Json.quantity?, Json.Quantity.isLess] using hless
  obtain ⟨hpos, hbelow⟩ := tdiv_between hnum hlt
  have hcast : ((num.tdiv den).toNat : Int) = num.tdiv den := Int.toNat_of_nonneg hpos
  exact ⟨(num.tdiv den).toNat, by rw [hcast, hinteger], by omega⟩

/-- Among integers the indices are those within the bounds. -/
theorem isIndex_int {count n : Int} (h : isIndex (.int count) (.int n) = .ok true) :
    0 ≤ n ∧ n < count := by
  obtain ⟨hleast, hless⟩ := isIndex_eq_true h
  rw [atMost?_int, Option.some.injEq, decide_eq_true_iff] at hleast
  rw [less?_int, Option.some.injEq, decide_eq_true_iff] at hless
  exact ⟨hleast, hless⟩

/-! ## §2. What the checks let pass. -/

/-- What follows a check that let pass. -/
theorem unless_eq_ok {α : Type} {answer : Except DefinitionError Bool} {err : DefinitionError}
    {rest : Except DefinitionError α} {result : α}
    (h : (do if ← answer then throw err else rest) = .ok result) :
    answer = .ok false ∧ rest = .ok result := by
  obtain ⟨b, hb, h⟩ := bind_eq_ok.1 h
  cases b with
  | true => cases h
  | false => exact ⟨hb, h⟩

/-- The value lists a number that is cut off to the index of the target, and the text
of the transition. -/
def WritesTransition (v : Json) (e : Transition) : Prop :=
  ∃ target, v.elements? = some [target, .str e.2] ∧ target.toInteger = .ok (e.1 : Int)

theorem checkTransition_eq_ok {count : Int} {origin : Nat} {v : Json} {e : Transition}
    (h : checkTransition (.int count) origin v = .ok e) :
    WritesTransition v e ∧ (e.1 : Int) < count := by
  obtain ⟨l, hl, h⟩ := bind_eq_ok.1 h
  rw [elementsOf_eq_ok] at hl
  split at h
  · next target symbols =>
    obtain ⟨b, hindex, h⟩ := bind_eq_ok.1 h
    cases b with
    | false => cases h
    | true =>
        obtain ⟨i, hi, hlt⟩ := exists_toInteger_of_isIndex hindex
        cases symbols with
        | str text =>
            obtain ⟨index, hinteger, h⟩ := bind_eq_ok.1 h
            rw [mapError_eq_ok, hi] at hinteger
            cases hinteger
            cases h
            exact ⟨⟨target, hl, hi⟩, hlt⟩
        | null | bool _ | int _ | float _ | arr _ | obj _ => cases h
  · cases h

theorem checkRow_eq_ok {count : Int} {origin : Nat} {items : List Json} {r : List Transition}
    (h : checkRow (.int count) origin (.arr items) = .ok r) :
    List.Forall₂ WritesTransition items r ∧ ∀ e ∈ r, (e.1 : Int) < count := by
  have hitems : List.Forall₂ (fun v e => checkTransition (.int count) origin v = .ok e) items r :=
    forall₂_of_mapM_eq_ok h
  exact ⟨hitems.imp fun _ _ hv => (checkTransition_eq_ok hv).1,
    forall_mem_of_forall₂ hitems fun _ _ hv => (checkTransition_eq_ok hv).2⟩

theorem checkRows_eq_ok {count : Json} {origin : Nat} {rows : List Json}
    {rs : List (List Transition)} (h : checkRows count origin rows = .ok rs) :
    List.Forall₂ (fun v r => ∃ o, checkRow count o v = .ok r) rows rs := by
  induction rows generalizing origin rs with
  | nil =>
      cases h
      exact .nil
  | cons v rows ih =>
      obtain ⟨r, hr, h⟩ := bind_eq_ok.1 h
      obtain ⟨rs', hrs, h⟩ := bind_eq_ok.1 h
      cases h
      exact .cons ⟨origin, hr⟩ (ih hrs)

theorem checkAccept_eq_ok {count : Json} {indices : List Json}
    (h : checkAccept count indices = .ok ()) :
    ∀ index ∈ indices, isIndex count index = .ok true := by
  induction indices with
  | nil => exact fun index hi => absurd hi List.not_mem_nil
  | cons index rest ih =>
      obtain ⟨b, hindex, h⟩ := bind_eq_ok.1 h
      cases b with
      | false => cases h
      | true => exact List.forall_mem_cons.2 ⟨hindex, ih h⟩

/-- A bound that is not too low. -/
theorem le_of_not_less {count n : Int}
    (h : compared (Json.less? (.int count) (.int n)) = .ok false) : n ≤ count := by
  rw [compared_eq_ok, less?_int, Option.some.injEq, decide_eq_false_iff_not] at h
  exact Int.not_lt.1 h

/-! ## §3. Definitions from documents. -/

/-- A definition takes over converted fields as they are: no number below zero was made
zero, and each transition is one that is written at its place. -/
structure Draft.Gives (draft : Draft) (d : Definition) : Prop where
  count_eq : draft.count = d.count
  names_eq : draft.names = d.names
  accept_eq : draft.accept = d.accept.map fun (i : Nat) => (i : Int)
  rows : List.Forall₂ (List.Forall₂ WritesTransition) draft.rows d.transitions
  alphabet_eq : draft.alphabet = alphabetJson d.alphabet

/-- What holds of converted fields whose checked rows are `rs`. -/
structure Draft.Passes (draft : Draft) (rs : List (List Transition)) : Prop where
  count : 0 ≤ draft.count
  names : (draft.names.length : Int) ≤ draft.count
  length : (draft.rows.length : Int) ≤ draft.count
  accept : ∀ i ∈ draft.accept, 0 ≤ i ∧ i < draft.count
  rows : List.Forall₂ (List.Forall₂ WritesTransition) draft.rows rs
  targets : ∀ r ∈ rs, ∀ e ∈ r, (e.1 : Int) < draft.count
  alphabet : alphabetJson draft.alphabet.asText? = draft.alphabet

theorem Draft.passes_of_check {draft : Draft} {rs : List (List Transition)}
    (h : draft.fields.check = .ok rs) : draft.Passes rs := by
  obtain ⟨hcount, h⟩ := unless_eq_ok h
  -- Names, rows and accepting indices are lists by now.
  obtain ⟨names, hlist, h⟩ := bind_eq_ok.1 h
  cases hlist
  obtain ⟨hnames, h⟩ := unless_eq_ok h
  obtain ⟨rows, hlist, h⟩ := bind_eq_ok.1 h
  cases hlist
  obtain ⟨hlength, h⟩ := unless_eq_ok h
  obtain ⟨indices, hlist, h⟩ := bind_eq_ok.1 h
  cases hlist
  obtain ⟨_, haccept, h⟩ := bind_eq_ok.1 h
  obtain ⟨rs', hrows, h⟩ := bind_eq_ok.1 h
  rw [List.length_map] at hlength
  have halphabet : rs' = rs ∧ alphabetJson draft.alphabet.asText? = draft.alphabet := by
    have hfield : draft.fields.alphabet = draft.alphabet := rfl
    rw [hfield] at h
    cases halphabet : draft.alphabet with
    | null | str _ =>
        rw [halphabet] at h
        exact ⟨Except.ok.inj h, rfl⟩
    | bool _ | int _ | float _ | arr _ | obj _ =>
        rw [halphabet] at h
        cases h
  obtain ⟨rfl, halphabet⟩ := halphabet
  have hchecked : List.Forall₂ (fun items r => ∃ origin,
      checkRow (.int draft.count) origin (.arr items) = .ok r) draft.rows rs' :=
    List.forall₂_map_left_iff.1 (checkRows_eq_ok hrows)
  exact {
    count := le_of_not_less hcount
    names := le_of_not_less hnames
    length := le_of_not_less hlength
    accept := fun i hi => isIndex_int (checkAccept_eq_ok haccept _ (List.mem_map_of_mem hi))
    rows := hchecked.imp fun _ _ hr => (checkRow_eq_ok hr.choose_spec).1
    targets := forall_mem_of_forall₂ hchecked fun _ _ hr => (checkRow_eq_ok hr.choose_spec).2
    alphabet := halphabet }

/-- **A definition from a document takes over the converted fields**, and these pass. -/
theorem exists_gives_of_ofJson {v : Json} (h : ofJson v = .ok d) :
    ∃ draft, Draft.ofJson v = .ok draft ∧ draft.Gives d ∧ draft.Passes d.transitions := by
  obtain ⟨draft, hdraft, h⟩ := bind_eq_ok.1 h
  obtain ⟨rs, hrs, h⟩ := bind_eq_ok.1 h
  cases h
  have hpasses := Draft.passes_of_check hrs
  have haccept : (draft.accept.map Int.toNat).map (fun (i : Nat) => (i : Int)) = draft.accept := by
    rw [List.map_map]
    refine (List.map_congr_left fun i hi => ?_).trans (List.map_id draft.accept)
    exact Int.toNat_of_nonneg (hpasses.accept i hi).1
  exact ⟨draft, hdraft, ⟨(Int.toNat_of_nonneg hpasses.count).symm, rfl, haccept.symm,
    hpasses.rows, hpasses.alphabet.symm⟩, hpasses⟩

theorem valid_of_ofJson {v : Json} (h : ofJson v = .ok d) : d.Valid := by
  obtain ⟨draft, _, hgives, hpasses⟩ := exists_gives_of_ofJson h
  have hcount := hgives.count_eq
  exact {
    names := by
      have hle := hpasses.names
      rw [hgives.names_eq, hcount] at hle
      exact Int.ofNat_le.1 hle
    rows := by
      have hle := hpasses.length
      rw [hgives.rows.length_eq, hcount] at hle
      exact Int.ofNat_le.1 hle
    accept_lt := by
      intro i hi
      have hmem : (i : Int) ∈ draft.accept := by
        rw [hgives.accept_eq]
        exact List.mem_map_of_mem hi
      have hlt := (hpasses.accept i hmem).2
      rw [hcount] at hlt
      exact Int.ofNat_lt.1 hlt
    target_lt := by
      intro r hr e he
      have hlt := hpasses.targets r hr e he
      rw [hcount] at hlt
      exact Int.ofNat_lt.1 hlt }

/-- The texts of a definition: those of its transitions and that of its alphabet. -/
def texts (d : Definition) : List String :=
  d.transitions.flatMap (·.map (·.2)) ++ d.alphabet.toList

/-- All texts list symbols. -/
def Legible (d : Definition) : Prop := ∀ text ∈ d.texts, ∃ g, SymbolSet.read text = .ok g

/-- A transition from an index stands in the row there. -/
theorem exists_row_of_mem_row {i : Nat} {e : Transition} (he : e ∈ d.row i) :
    ∃ r, d.transitions[i]? = some r ∧ e ∈ r := by
  unfold row at he
  rw [List.getD_eq_getElem?_getD] at he
  cases hrow : d.transitions[i]? with
  | none =>
      rw [hrow] at he
      exact absurd he List.not_mem_nil
  | some r =>
      rw [hrow] at he
      exact ⟨r, rfl, he⟩

theorem text_mem_texts {i : Nat} {e : Transition} (he : e ∈ d.row i) : e.2 ∈ d.texts := by
  obtain ⟨r, hr, he⟩ := exists_row_of_mem_row he
  exact List.mem_append_left _
    (List.mem_flatMap.2 ⟨r, List.mem_of_getElem? hr, List.mem_map_of_mem he⟩)

/-- The ends of a transition lie below the count. -/
theorem Valid.lt_of_mem_row (h : d.Valid) {i : Nat} {e : Transition} (he : e ∈ d.row i) :
    i < d.count ∧ e.1 < d.count := by
  obtain ⟨r, hr, he⟩ := exists_row_of_mem_row he
  obtain ⟨hlt, _⟩ := List.getElem?_eq_some_iff.1 hr
  exact ⟨Nat.lt_of_lt_of_le hlt h.rows, h.target_lt r (List.mem_of_getElem? hr) e he⟩

/-- Rows do not outnumber the count, so all of them are rows of indices. -/
theorem Valid.mem_texts (h : d.Valid) {text : String} :
    text ∈ d.texts ↔
      (∃ i < d.count, ∃ e ∈ d.row i, e.2 = text) ∨ d.alphabet = some text := by
  constructor
  · intro htext
    obtain htext | htext := List.mem_append.1 htext
    · obtain ⟨r, hr, htext⟩ := List.mem_flatMap.1 htext
      obtain ⟨e, he, rfl⟩ := List.mem_map.1 htext
      obtain ⟨i, hi, rfl⟩ := List.getElem_of_mem hr
      refine Or.inl ⟨i, Nat.lt_of_lt_of_le hi h.rows, e, ?_, rfl⟩
      rw [row, List.getD_eq_getElem?_getD, List.getElem?_eq_getElem hi]
      exact he
    · exact Or.inr (Option.mem_toList.1 htext)
  · intro htext
    obtain ⟨i, _, e, he, rfl⟩ | htext := htext
    · exact text_mem_texts he
    · exact List.mem_append_right _ (Option.mem_toList.2 htext)

theorem Valid.legible_iff (h : d.Valid) : d.Legible ↔
    (∀ i < d.count, ∀ e ∈ d.row i, ∃ g, SymbolSet.read e.2 = .ok g)
      ∧ ∀ text, d.alphabet = some text → ∃ g, SymbolSet.read text = .ok g := by
  unfold Legible
  constructor
  · intro hlegible
    refine ⟨fun i _ e he => hlegible _ (text_mem_texts he), fun text htext => ?_⟩
    exact hlegible text (h.mem_texts.2 (Or.inr htext))
  · intro hread text htext
    obtain ⟨i, hi, e, he, rfl⟩ | htext := h.mem_texts.1 htext
    · exact hread.1 i hi e he
    · exact hread.2 text htext

theorem Valid.readable (h : d.Valid) (hlegible : d.Legible) : d.Readable where
  accept_lt := h.accept_lt
  target_lt _ _ _ he := (h.lt_of_mem_row he).2
  texts := (h.legible_iff.1 hlegible).1
  alphabet := (h.legible_iff.1 hlegible).2

end Definition

/-! ## §4. Reading what obeys the rules. -/

namespace Automaton

theorem readTransitions_cases (r : Row) (l : List Transition) :
    (∃ r', readTransitions r l = .ok r' ∧ ∀ e ∈ l, ∃ g, SymbolSet.read e.2 = .ok g)
      ∨ ∃ e ∈ l, ∃ err, SymbolSet.read e.2 = .error err ∧ readTransitions r l = .error err := by
  induction l generalizing r with
  | nil => exact Or.inl ⟨r, rfl, fun e he => absurd he List.not_mem_nil⟩
  | cons e l ih =>
      cases hread : SymbolSet.read e.2 with
      | error err =>
          refine Or.inr ⟨e, List.mem_cons_self, err, hread, ?_⟩
          rw [readTransitions, hread]
          rfl
      | ok g =>
          have hrest : readTransitions r (e :: l)
              = readTransitions (r.insert (idAt e.1) (r.getD (idAt e.1) ∅ ∪ g)) l := by
            rw [readTransitions, hread]
            rfl
          rw [hrest]
          obtain ⟨r', hr, hall⟩ | ⟨e', he', err, herr, hr⟩ := ih _
          · exact Or.inl ⟨r', hr, List.forall_mem_cons.2 ⟨⟨g, hread⟩, hall⟩⟩
          · exact Or.inr ⟨e', List.mem_cons_of_mem e he', err, herr, hr⟩

/-- The rows are read in full, or one text cannot be read. -/
theorem readRows_cases (d : Definition) :
    (∀ i < d.count, ∀ e ∈ d.row i, ∃ g, SymbolSet.read e.2 = .ok g)
      ∨ ∃ i < d.count, ∃ e ∈ d.row i, ∃ err, SymbolSet.read e.2 = .error err
        ∧ ofDefinition d = .error (.symbol err) := by
  obtain ⟨rows, hrows, hall⟩ | ⟨i, hi, err, herr, hrows⟩ :=
    mapM_cases (fun i => readTransitions ∅ (d.row i)) (List.range d.count)
  · have hok : ∀ i ∈ List.range d.count, ∃ r, readTransitions ∅ (d.row i) = .ok r :=
      forall_mem_of_forall₂ hall.flip fun r i hi => ⟨r, hi⟩
    refine Or.inl fun i hi => ?_
    obtain ⟨r, hr⟩ := hok i (List.mem_range.2 hi)
    obtain ⟨r', _, hread⟩ | ⟨_, _, err, _, herr⟩ := readTransitions_cases ∅ (d.row i)
    · exact hread
    · cases hr.symm.trans herr
  · refine Or.inr ⟨i, List.mem_range.1 hi, ?_⟩
    obtain ⟨r', hr', _⟩ | ⟨e, he, err', herr', hr'⟩ := readTransitions_cases ∅ (d.row i)
    · cases hr'.symm.trans herr
    · cases hr'.symm.trans herr
      refine ⟨e, he, err, herr', ?_⟩
      unfold ofDefinition partsOf
      dsimp only
      rw [hrows]
      rfl

/-- What is read before the alphabet does not depend on it. -/
theorem ofParts_eq_bind (p : Parts) :
    ofParts p = (do
      let f ← ofParts { p with alphabet := none }
      let alphabet ← (readAlphabet p.alphabet).mapError .symbol
      return { f with alphabet }) := by
  have hkeys : Parts.keysGiven { p with alphabet := none } = p.keysGiven := rfl
  unfold ofParts
  dsimp only
  rw [hkeys]
  cases p.keysGiven.all Json.isKey with
  | false => rfl
  | true =>
      have hnone : (readAlphabet none).mapError PartsError.symbol = pure none := rfl
      simp only [Bool.not_true, Bool.false_eq_true, if_false, hnone, bind_assoc, pure_bind]

/-- The alphabet of a definition is read last. -/
theorem ofDefinition_eq_bind (d : Definition) :
    ofDefinition d = (do
      let f ← ofDefinition { d with alphabet := none }
      let alphabet ← (readAlphabet (d.alphabet.map .text)).mapError .symbol
      return { f with alphabet }) := by
  have hrow : ∀ i, Definition.row { d with alphabet := none } i = d.row i := fun i => rfl
  unfold ofDefinition partsOf
  dsimp only
  simp only [hrow]
  cases (List.range d.count).mapM fun i => readTransitions ∅ (d.row i) with
  | error err => rfl
  | ok rows => exact ofParts_eq_bind _

/-- **A definition that obeys the rules is read, or one of its texts lists no symbols.**
Then the definition is refused for what is wrong with that text. -/
theorem ofDefinition_cases {d : Definition} (h : d.Valid) :
    ((∃ f, ofDefinition d = .ok f) ∧ d.Legible)
      ∨ ∃ err, ofDefinition d = .error (.symbol err)
        ∧ ∃ text ∈ d.texts, SymbolSet.read text = .error err := by
  obtain hrows | ⟨i, _, e, he, err, hread, herr⟩ := readRows_cases d
  · -- Without its alphabet the definition is read.
    have hreadable : Definition.Readable { d with alphabet := none } :=
      { accept_lt := h.accept_lt
        target_lt := fun _ _ _ he => (h.lt_of_mem_row he).2
        texts := hrows
        alphabet := nofun }
    obtain ⟨f, hf, _⟩ := ofDefinition_ok hreadable
    rw [ofDefinition_eq_bind, hf]
    cases halphabet : d.alphabet with
    | none =>
        refine Or.inl ⟨⟨_, rfl⟩, h.legible_iff.2 ⟨hrows, fun text htext => ?_⟩⟩
        exact absurd (halphabet.symm.trans htext) nofun
    | some text =>
        cases hread : SymbolSet.read text with
        | ok g =>
            refine Or.inl ⟨⟨{ f with alphabet := some g.withoutEmpty }, ?_⟩,
              h.legible_iff.2 ⟨hrows, fun text' htext => ?_⟩⟩
            · show ((SymbolSet.read text >>= _).mapError _ >>= _) = _
              rw [hread]
              rfl
            · cases halphabet.symm.trans htext
              exact ⟨g, hread⟩
        | error err =>
            refine Or.inr ⟨err, ?_, text, h.mem_texts.2 (Or.inr halphabet), hread⟩
            show ((SymbolSet.read text >>= _).mapError _ >>= _) = _
            rw [hread]
            rfl
  · exact Or.inr ⟨err, herr, e.2, Definition.text_mem_texts he, hread⟩

end Automaton

/-! ## §5. Documents. -/

namespace Definition

/-- **Whatever a document gives obeys the rules**, with its fields taken over as they
are converted.  It is read if and only if its texts list symbols, and is never refused
for anything else. -/
theorem ofJson_obeys {v : Json} {d : Definition} (h : ofJson v = .ok d) :
    (∃ draft, Draft.ofJson v = .ok draft ∧ draft.Gives d)
      ∧ d.Valid
      ∧ ((∃ f, Automaton.ofDefinition d = .ok f) ↔
          ∀ text ∈ d.texts, ∃ g, SymbolSet.read text = .ok g)
      ∧ ∀ refusal, Automaton.ofDefinition d = .error refusal →
          ∃ err, refusal = .symbol err ∧ ∃ text ∈ d.texts, SymbolSet.read text = .error err := by
  obtain ⟨draft, hdraft, hgives, _⟩ := exists_gives_of_ofJson h
  have hvalid := valid_of_ofJson h
  refine ⟨⟨draft, hdraft, hgives⟩, hvalid, ?_, ?_⟩
  · constructor
    · intro hread
      obtain ⟨f, hf⟩ := hread
      obtain ⟨_, hlegible⟩ | ⟨err, herr, _⟩ := Automaton.ofDefinition_cases hvalid
      · exact hlegible
      · cases hf.symm.trans herr
    · intro hlegible
      obtain ⟨f, hf, _⟩ := Automaton.ofDefinition_ok (hvalid.readable hlegible)
      exact ⟨f, hf⟩
  · intro refusal hrefused
    obtain ⟨⟨f, hf⟩, _⟩ | ⟨err, herr, htext⟩ := Automaton.ofDefinition_cases hvalid
    · cases hf.symm.trans hrefused
    · cases hrefused.symm.trans herr
      exact ⟨err, rfl, htext⟩

/-- A document whose values are of other kinds than those of definitions. -/
def looseDocument : Json :=
  .obj [("n", .str " 2"), ("names", .str "pq"), ("accept", .str "10"),
    ("transitions", .arr [.arr [.arr [.float (.finite false 3 (-1)), .str "a-c"],
      .arr [.bool true, .str "d"]]])]

/-- The definition that it gives, with the fraction cut off. -/
def ofLoose : Definition where
  count := 2
  names := [.str "p", .str "q"]
  accept := [1, 0]
  transitions := [[(1, "a-c"), (1, "d")]]
  alphabet := none

theorem ofJson_loose : ofJson looseDocument = .ok ofLoose := rfl

theorem legible_ofLoose : ofLoose.Legible := by
  have htexts : ofLoose.texts = ["a-c", "d"] := rfl
  unfold Legible
  rw [htexts]
  exact List.forall_mem_cons.2 ⟨⟨_, rfl⟩, List.forall_mem_singleton.2 ⟨_, rfl⟩⟩

theorem ofJson_obeys_loose :
    ofJson looseDocument = .ok ofLoose ∧ ofLoose.Valid
      ∧ ∃ f, Automaton.ofDefinition ofLoose = .ok f := by
  obtain ⟨_, hvalid, hread, _⟩ := ofJson_obeys ofJson_loose
  exact ⟨ofJson_loose, hvalid, hread.2 legible_ofLoose⟩

/-- **One conversion is enough**: the definition that a document gives is given by its
own document too, and the two documents are read alike. -/
theorem ofJson_toJson_of_ofJson {v : Json} {d : Definition} (h : ofJson v = .ok d) :
    ofJson d.toJson = .ok d ∧ Automaton.ofDocument d.toJson = Automaton.ofDocument v := by
  have hagain : ofJson d.toJson = .ok d := ofJson_toJson (valid_of_ofJson h)
  refine ⟨hagain, ?_⟩
  unfold Automaton.ofDocument
  rw [hagain, h]

theorem ofJson_toJson_of_ofJson_loose :
    ofJson looseDocument = .ok ofLoose ∧ ofJson ofLoose.toJson = .ok ofLoose
      ∧ ofLoose.toJson ≠ looseDocument := by
  refine ⟨ofJson_loose, (ofJson_toJson_of_ofJson ofJson_loose).1, fun heq => ?_⟩
  have hcount := congrArg (·.get? "n") heq
  exact absurd (Option.some.inj hcount) nofun

end Definition

end FiniteAutomata
