/-
  FiniteAutomata.Proofs.Documents
  ───────────────────────────────
  **A DEFINITION IS READ BACK FROM ITS DOCUMENT, AND AN AUTOMATON FROM ITS FILE.**

  Four layers lie between an automaton and its file: the definition, the document,
  its text, and the same three back.  Each is inverted on what the one before can
  yield:

      Definition.Valid     the rules that any definition obeys
      ofJson_toJson        a definition that obeys them is read back from its document
      plain_toJson         a document whose text reads back
      ofFile_fileText      so a file is read as what the definition itself is read as
-/
import FiniteAutomata.Proofs.JsonText
import FiniteAutomata.Proofs.RoundTrip

namespace FiniteAutomata

/-- What is written element by element is read element by element. -/
theorem mapM_map_ok {ε α β γ : Type} {read : β → Except ε γ} {write : α → β} {result : α → γ}
    {l : List α} (h : ∀ x ∈ l, read (write x) = .ok (result x)) :
    (l.map write).mapM read = .ok (l.map result) := by
  rw [List.mapM_map]
  exact mapM_ok h

namespace Definition

variable {d : Definition}

/-! ## §1. The rules. -/

/-- The rules that any definition obeys. -/
structure Valid (d : Definition) : Prop where
  names : d.names.length ≤ d.count
  rows : d.transitions.length ≤ d.count
  accept_lt : ∀ i ∈ d.accept, i < d.count
  target_lt : ∀ r ∈ d.transitions, ∀ e ∈ r, e.1 < d.count

theorem less?_int (m n : Int) : Json.less? (.int m) (.int n) = some (decide (m < n)) := by
  unfold Json.less? Json.quantity? Json.Quantity.isLess
  simp

theorem atMost?_int (m n : Int) : Json.atMost? (.int m) (.int n) = some (decide (m ≤ n)) := by
  unfold Json.atMost? Json.quantity? Json.Quantity.isAtMost
  simp

/-- A number below the count is an index. -/
theorem isIndex_of_lt {count index : Nat} (h : index < count) :
    isIndex (.int count) (.int index) = .ok true := by
  unfold isIndex
  rw [atMost?_int, less?_int]
  have hpos : (0 : Int) ≤ index := by omega
  have hlt : (index : Int) < count := by omega
  simp [compared, hpos, hlt, bind, Except.bind]

theorem checkTransition_ok {count origin : Nat} {e : Transition} (he : e.1 < count) :
    checkTransition (.int count) origin (transitionJson e) = .ok e := by
  obtain ⟨target, text⟩ := e
  unfold checkTransition transitionJson
  simp [elementsOf, Json.elements?, isIndex_of_lt he, Json.toInteger, Except.mapError, bind,
    Except.bind, pure, Except.pure]

theorem checkRow_ok {count origin : Nat} {r : List Transition} (hr : ∀ e ∈ r, e.1 < count) :
    checkRow (.int count) origin (.arr (r.map transitionJson)) = .ok r :=
  (mapM_map_ok fun e he => checkTransition_ok (hr e he)).trans (congrArg _ (List.map_id' r))

theorem checkRows_ok {count : Nat} {rows : List (List Transition)}
    (hrows : ∀ r ∈ rows, ∀ e ∈ r, e.1 < count) (origin : Nat) :
    checkRows (.int count) origin (rows.map fun r => .arr (r.map transitionJson)) = .ok rows := by
  induction rows generalizing origin with
  | nil => rfl
  | cons r rows ih =>
      have hrest := ih (fun r' hr' => hrows r' (List.mem_cons_of_mem r hr')) (origin + 1)
      rw [List.map_cons, checkRows, checkRow_ok (hrows r List.mem_cons_self), hrest]
      rfl

theorem checkAccept_ok {count : Nat} {accept : List Nat} (h : ∀ i ∈ accept, i < count) :
    checkAccept (.int count) (accept.map fun (i : Nat) => .int i) = .ok () := by
  induction accept with
  | nil => rfl
  | cons i accept ih =>
      rw [List.map_cons, checkAccept, isIndex_of_lt (h i List.mem_cons_self)]
      exact ih fun j hj => h j (List.mem_cons_of_mem i hj)

/-! ## §2. Documents. -/

/-- An alphabet as a value. -/
def alphabetJson : Option String → Json
  | some text => .str text
  | none => .null

/-- The fields of a definition as they come from its document. -/
def draft (d : Definition) : Draft where
  count := d.count
  names := d.names
  accept := d.accept.map fun (i : Nat) => (i : Int)
  rows := d.transitions.map (·.map transitionJson)
  alphabet := alphabetJson d.alphabet

theorem get?_alphabet_toJson (d : Definition) :
    (d.toJson.get? "alphabet").getD .null = alphabetJson d.alphabet := by
  unfold toJson
  cases d.alphabet with
  | none => rfl
  | some text => rfl

theorem draft_ofJson_toJson (d : Definition) : Draft.ofJson d.toJson = .ok d.draft := by
  have hcount : mentionsCount d.toJson = .ok true := by
    simp [mentionsCount, toJson]
  have haccept : (d.accept.map fun (i : Nat) => Json.int i).mapM integerOf
      = .ok (d.accept.map fun (i : Nat) => (i : Int)) := mapM_map_ok fun _ _ => rfl
  have hrows : (d.transitions.map fun r => Json.arr (r.map transitionJson)).mapM elementsOf
      = .ok (d.transitions.map (·.map transitionJson)) := mapM_map_ok fun _ _ => rfl
  have hn : d.toJson.get? "n" = some (.int d.count) := rfl
  have hnames : d.toJson.get? "names" = some (.arr d.names) := rfl
  have haccepts : d.toJson.get? "accept"
      = some (.arr (d.accept.map fun (i : Nat) => .int i)) := rfl
  have htransitions : d.toJson.get? "transitions" = some (rowsJson d.transitions) := rfl
  unfold Draft.ofJson
  rw [hcount, hn, hnames, haccepts, htransitions, get?_alphabet_toJson]
  show (do
    let accept ← (d.accept.map fun (i : Nat) => Json.int i).mapM integerOf
    let rows ← (d.transitions.map fun (r : List Transition) =>
      Json.arr (r.map transitionJson)).mapM elementsOf
    return Draft.mk d.count d.names accept rows (alphabetJson d.alphabet)) = _
  rw [haccept, hrows]
  rfl

theorem check_draft (h : d.Valid) : d.draft.fields.check = .ok d.transitions := by
  have hnotless : ∀ {n : Nat}, n ≤ d.count →
      compared (Json.less? (.int d.count) (.int n)) = .ok false := by
    intro n hn
    have hlt : ¬ ((d.count : Int) < n) := by omega
    rw [less?_int, decide_eq_false hlt]
    rfl
  have hnegative : compared (Json.less? (.int d.count) (.int 0)) = .ok false :=
    hnotless (Nat.zero_le d.count)
  have haccept : checkAccept (.int d.count) ((d.accept.map fun (i : Nat) => (i : Int)).map .int)
      = .ok () := by
    rw [List.map_map]
    exact checkAccept_ok h.accept_lt
  have hchecked : checkRows (.int d.count) 0
      ((d.transitions.map (·.map transitionJson)).map .arr) = .ok d.transitions := by
    rw [List.map_map]
    exact checkRows_ok h.target_lt 0
  unfold Fields.check draft Draft.fields
  -- Each check lets the definition pass, the last by the kind of its alphabet.
  simp only [elementsOf, Json.elements?, List.length_map, hnegative, hnotless h.names,
    hnotless h.rows, haccept, hchecked, bind, Except.bind, pure, Except.pure, if_false,
    Bool.false_eq_true]
  cases d.alphabet with
  | none => rfl
  | some text => rfl

/-- **A definition that obeys the rules is read back from its document.** -/
theorem ofJson_toJson (h : d.Valid) : ofJson d.toJson = .ok d := by
  have haccept : d.draft.accept.map Int.toNat = d.accept := by
    show (d.accept.map fun (i : Nat) => (i : Int)).map Int.toNat = d.accept
    rw [List.map_map]
    exact List.map_id' d.accept
  have halphabet : d.draft.alphabet.asText? = d.alphabet := by
    show (alphabetJson d.alphabet).asText? = d.alphabet
    cases d.alphabet with
    | none => rfl
    | some text => rfl
  unfold ofJson
  rw [draft_ofJson_toJson]
  show (do
    let transitions ← d.draft.fields.check
    return Definition.mk d.count d.names (d.draft.accept.map Int.toNat) transitions
      d.draft.alphabet.asText?) = _
  rw [check_draft h, haccept, halphabet]
  rfl

/-- The text of a document reads back if the names do and the count has not too many
digits. -/
theorem plain_toJson (h : d.Valid) (hcount : d.count < 10 ^ Text.digitLimit)
    (hnames : ∀ n ∈ d.names, n.Plain) : d.toJson.Plain := by
  have hnat : ∀ {n : Nat}, n ≤ d.count → (Json.int n).Plain := fun hn =>
    .int (Nat.lt_of_le_of_lt (Nat.le_of_eq (Int.natAbs_natCast _)) (Nat.lt_of_le_of_lt hn hcount))
  have haccept : (Json.arr (d.accept.map fun (i : Nat) => .int i)).Plain := by
    refine .arr fun v hv => ?_
    obtain ⟨i, hi, rfl⟩ := List.mem_map.1 hv
    exact hnat (Nat.le_of_lt (h.accept_lt i hi))
  have htransition : ∀ r ∈ d.transitions, ∀ e ∈ r, (transitionJson e).Plain := by
    intro r hr e he
    refine .arr fun v hv => ?_
    obtain rfl | hv := List.mem_cons.1 hv
    · exact hnat (Nat.le_of_lt (h.target_lt r hr e he))
    · obtain rfl := List.mem_singleton.1 hv
      exact .str e.2
  have hrows : (rowsJson d.transitions).Plain := by
    refine .arr fun v hv => ?_
    obtain ⟨r, hr, rfl⟩ := List.mem_map.1 hv
    refine .arr fun v hv => ?_
    obtain ⟨e, he, rfl⟩ := List.mem_map.1 hv
    exact htransition r hr e he
  have hmembers : ∀ m ∈ [("n", Json.int d.count), ("names", .arr d.names),
      ("accept", .arr (d.accept.map fun (i : Nat) => .int i)),
      ("transitions", rowsJson d.transitions)], m.2.Plain := by
    simp only [List.forall_mem_cons]
    exact ⟨hnat (Nat.le_refl d.count), .arr hnames, haccept, hrows, nofun⟩
  unfold toJson
  -- Only an alphabet makes a further member.
  cases d.alphabet with
  | none =>
      refine .obj ?_ hmembers
      show ["n", "names", "accept", "transitions"].Nodup
      decide
  | some text =>
      refine .obj ?_ (List.forall_mem_append.2 ⟨hmembers, ?_⟩)
      · show ["n", "names", "accept", "transitions", "alphabet"].Nodup
        decide
      · exact List.forall_mem_singleton.2 (.str text)

end Definition

/-! ## §3. Files. -/

theorem IdSupply.next_beyond {ids : StateSet} (hpos : 0 ≤ ids.max?.getD 0) :
    (beyond ids).next = ids.max?.getD 0 + 1 := by
  have hone : (1 : Int) ≤ ids.max?.getD 0 + 1 := by
    unfold StateId at *
    omega
  unfold beyond startingAt?
  rw [dif_pos hone]
  rfl

/-- The id behind those that are read is the first that is handed out. -/
theorem Definition.Describes.next_freshSupply {d : Definition} {f : Automaton}
    (h : d.Describes f) : f.freshSupply.next = d.count + 1 := by
  have hlast : f.states.max?.getD 0 = d.count := by
    cases hmax : f.states.max? with
    | none =>
        -- Without a last state there is none at all.
        have hnone : f.states.toList = [] := by
          unfold OrderedSet.max? at hmax
          exact List.getLast?_eq_none_iff.1 hmax
        have hcount : d.count = 0 := by
          by_contra hpos
          have hmem : Automaton.idAt 0 ∈ f.states.toList :=
            h.mem_states.2 ⟨0, Nat.pos_of_ne_zero hpos, rfl⟩
          rw [hnone] at hmem
          exact absurd hmem List.not_mem_nil
        rw [hcount]
        rfl
    | some m =>
        have hm : m ∈ f.states := by
          unfold OrderedSet.max? at hmax
          exact List.mem_of_getLast? hmax
        obtain ⟨hpos, hle⟩ := h.mem_states_iff.1 hm
        have hge := OrderedSet.le_max? hmax d.count
          (h.mem_states_iff.2 ⟨by unfold StateId at *; omega, Int.le_refl _⟩)
        exact Int.le_antisymm hle hge
  unfold Automaton.freshSupply
  rw [IdSupply.next_beyond (by rw [hlast]; exact Int.natCast_nonneg _), hlast]

namespace Automaton

variable {a : Automaton}

theorem valid_toDefinition (ha : a.WellFormed) : a.toDefinition.Valid where
  names := Nat.le_of_eq (List.length_map _)
  rows := Nat.le_of_eq (List.length_map _)
  accept_lt := (readable_toDefinition ha).accept_lt
  target_lt r hr e he := by
    obtain ⟨s?, _, rfl⟩ := List.mem_map.1 hr
    cases s? with
    | none => exact absurd he List.not_mem_nil
    | some s =>
        obtain ⟨t, g, hl, rfl⟩ := mem_definitionRow.1 he
        exact indexOf_lt ha (ha.target_mem s t g hl)

/-- Names that are texts are written as texts, that of a missing start too. -/
theorem plain_names_toDefinition (ha : a.WellFormed)
    (hnames : ∀ s ∈ a.states, ∃ text, a.names.get? s = some (.str text)) :
    ∀ n ∈ a.toDefinition.names, n.Plain := by
  intro n hn
  obtain ⟨s?, hs, rfl⟩ := List.mem_map.1 hn
  cases s? with
  | none => exact .str _
  | some s =>
      have hstate : s ∈ a.states := (mem_indexOrder ha).1 hs
      obtain ⟨text, htext⟩ := hnames s hstate
      rw [definitionName_of_get? hstate htext]
      exact .str text

theorem ofDocument_toDefinition (ha : a.WellFormed) :
    ofDocument a.toDefinition.toJson = (ofDefinition a.toDefinition).mapError .parts := by
  unfold ofDocument
  rw [Definition.ofJson_toJson (valid_toDefinition ha)]
  rfl

/-- **An automaton is read from its file as from its definition**, ids and the next id
included, if its names are texts.  Any text that is parsed as its document will do, and
the text of its file is one, as long as its states can be counted in the digits that are
read. -/
theorem ofFile_fileText {supply : IdSupply} (h : InLineage a supply)
    (hnames : ∀ s ∈ a.states, ∃ text, a.names.get? s = some (.str text)) (path : String) :
    ∃ f, ofDefinition a.toDefinition = .ok f
      ∧ f.freshSupply.next = a.toDefinition.count + 1
      ∧ ofDocument a.toDefinition.toJson = .ok f
      ∧ (∀ text, Json.parse text = .ok a.toDefinition.toJson → ofFile path (some text) = .ok f)
      ∧ (a.toDefinition.count < 10 ^ Text.digitLimit →
          Json.parse a.fileText = .ok a.toDefinition.toJson) := by
  have ha := h.suppliedBy.wellFormed
  obtain ⟨f, hread, hd⟩ := ofDefinition_ok (readable_toDefinition ha)
  have hdocument : ofDocument a.toDefinition.toJson = .ok f := by
    rw [ofDocument_toDefinition ha, hread]
    rfl
  refine ⟨f, hread, hd.next_freshSupply, hdocument, ?_, ?_⟩
  · intro text hparse
    show ((Json.parse text).mapError LoadError.json >>= ofDocument) = _
    rw [hparse]
    exact hdocument
  · intro hcount
    exact Json.parse_pretty (Definition.plain_toJson (valid_toDefinition ha) hcount
      (plain_names_toDefinition ha hnames))

/-- A single state whose name needs escapes. -/
def oneNamed : Automaton where
  start := some 1
  states := .singleton 1
  names := .ofList [(1, .str "\"\\ Ω\n")]
  accept := ∅
  table := .ofList [(1, ∅)]
  alphabet := none

theorem inLineage_oneNamed : InLineage oneNamed ⟨2, by decide⟩ := by
  have hempty : InLineage .empty .fresh := .created (o := .nothing) rfl
  have hone := hempty.edited (e := .addState (.str "\"\\ Ω\n")) rfl rfl
  exact hone.edited (e := .setStart (.id 1)) rfl rfl

theorem ofFile_fileText_oneNamed :
    InLineage oneNamed ⟨2, by decide⟩
      ∧ (∀ s ∈ oneNamed.states, ∃ text, oneNamed.names.get? s = some (.str text))
      ∧ ∃ f, ofDefinition oneNamed.toDefinition = .ok f
          ∧ ofFile "one.json" (some oneNamed.fileText) = .ok f := by
  have hnames : ∀ s ∈ oneNamed.states, ∃ text, oneNamed.names.get? s = some (.str text) := by
    intro s hs
    obtain rfl := List.mem_singleton.1 hs
    exact ⟨_, rfl⟩
  have hcount : oneNamed.toDefinition.count < 10 ^ Text.digitLimit :=
    Nat.one_lt_pow (by decide) (by decide)
  obtain ⟨f, hread, _, _, hfile, hparse⟩ :=
    ofFile_fileText inLineage_oneNamed hnames "one.json"
  exact ⟨inLineage_oneNamed, hnames, f, hread, hfile _ (hparse hcount)⟩

end Automaton

end FiniteAutomata
