/-
  FiniteAutomata.Proofs.Unchanged
  ───────────────────────────────
  **AN EDIT ANSWERS ITS RECEIVER IFF IT CHANGES NOTHING.**

  Each change has a test of its own for whether there is anything to do: it looks up
  a label, compares two sets of states, or finds a list of missing symbols empty.
  What the tests have in common is said twice, without them:

      Meets        what is asked for is so already
      SameParts    the result has all parts that the receiver has

  A test may go wrong in two ways, to let a request pass that asks for something or
  to answer a copy.  `Discerns` excludes both, and is shown of each change:

      edit_discerns        of every edit
      edit_of_unknown      an edit of a state that is not there does nothing

  In a workspace the receiver is the version that is edited, so there the question
  is which version is answered (`perform_answers_receiver_iff`).
-/
import FiniteAutomata.Proofs.Commands
import FiniteAutomata.Proofs.Coverage
import FiniteAutomata.Proofs.Trimmed

namespace FiniteAutomata

/-! ## §1. What is asked for, and what is the same. -/

/-- The states that an edit is about. -/
def Edit.references : Edit → List StateRef
  | .removeState r | .setStart r | .setAccept r _ | .toggleAccept r | .setName r _ => [r]
  | .setTransition o t _ | .removeTransition o t => [o, t]
  | .setTransitionTarget o old new => [o, old, new]
  | .addState _ | .setAlphabet _ | .unsetAlphabet | .trim | .complete => []

/-- The arguments are names and symbols: a name equals itself, and an alphabet is
not cleared by setting none. -/
def Edit.Proper : Edit → Prop
  | .setName _ name => name.isEqual name = true
  | .setAlphabet label => label ≠ none
  | _ => True

namespace Automaton

variable {a b : Automaton}

/-- `a.Meets e`: what the edit asks for is so already, or it asks for nothing because
a reference names no state. -/
def Meets (a : Automaton) : Edit → Prop
  | .addState _ => False
  | .removeState r | .toggleAccept r => a.resolve? r = none
  | .setTransition o t label => ∀ p q g, a.resolve? o = some p → a.resolve? t = some q →
      label.read = .ok g → ∀ x, a.table.Carries p q x ↔ x ∈ g
  | .setTransitionTarget o old new => ∀ p x y, a.resolve? o = some p →
      a.resolve? old = some x → a.resolve? new = some y → x = y ∨ a.table.label? p x = none
  | .removeTransition o t => a.label? o t = none
  | .setStart r =>
      (r = .id 0 → a.start = none) ∧ ∀ s, a.resolve? r = some s → a.start = some s
  | .setAccept r accept => ∀ s, a.resolve? r = some s → (s ∈ a.accept ↔ accept = true)
  | .setName r name => ∀ s, a.resolve? r = some s →
      ∃ n, a.names.get? s = some n ∧ n.isEqual name = true
  | .setAlphabet label => ∀ alphabet, readAlphabet label = .ok alphabet → a.alphabet = alphabet
  | .unsetAlphabet => a.alphabet = none
  | .trim => a.isTrimmed = true
  | .complete => a.Covers a.effectiveAlphabet

/-- `a.SameParts b`: the second automaton has the parts of the first, with names that
are the same or equal. -/
structure SameParts (a b : Automaton) : Prop where
  start_eq : b.start = a.start
  states_eq : b.states = a.states
  names : ∀ s n m, a.names.get? s = some n → b.names.get? s = some m →
    n = m ∨ n.isEqual m = true
  accept_eq : b.accept = a.accept
  table_eq : b.table = a.table
  alphabet_eq : b.alphabet = a.alphabet

theorem SameParts.refl (a : Automaton) : a.SameParts a where
  start_eq := rfl
  states_eq := rfl
  names _ _ _ hn hm := Or.inl (Option.some.inj (hn.symm.trans hm))
  accept_eq := rfl
  table_eq := rfl
  alphabet_eq := rfl

theorem not_sameParts_of_label? {p q : StateId}
    (h : b.table.label? p q ≠ a.table.label? p q) : ¬ a.SameParts b :=
  fun hs => h (by rw [hs.table_eq])

/-- `a.Discerns met result`: nothing is answered if the condition is met, and
otherwise an automaton with other parts. -/
inductive Discerns (a : Automaton) (met : Prop) : Option Automaton → Prop
  | nothing : met → Discerns a met none
  | change {b : Automaton} : ¬ met → ¬ a.SameParts b → Discerns a met (some b)

theorem Discerns.congr {met met' : Prop} {result : Option Automaton}
    (h : a.Discerns met result) (hiff : met ↔ met') : a.Discerns met' result := by
  cases h with
  | nothing hmet => exact .nothing (hiff.1 hmet)
  | change hmet hdiff => exact .change (mt hiff.2 hmet) hdiff

theorem Discerns.eq_none_iff {met : Prop} {result : Option Automaton}
    (h : a.Discerns met result) : result = none ↔ met := by
  cases h with
  | nothing hmet => exact iff_of_true rfl hmet
  | change hmet _ => exact iff_of_false nofun hmet

theorem Discerns.eq_none_iff_sameParts {met : Prop} {result : Option Automaton}
    (h : a.Discerns met result) : result = none ↔ a.SameParts (result.getD a) := by
  cases h with
  | nothing _ => exact iff_of_true rfl (.refl a)
  | change _ hdiff => exact iff_of_false nofun hdiff

/-! ## §2. Changes of states. -/

theorem removeState?_discerns (r : StateRef) :
    a.Discerns (a.Meets (.removeState r)) (a.removeState? r) := by
  unfold removeState?
  cases hr : a.resolve? r with
  | none => exact .nothing hr
  | some s =>
      refine .change (by simp [Meets, hr]) fun h => ?_
      have hs : s ∈ (a.dropState s).states := h.states_eq ▸ (resolve?_eq_some_iff.1 hr).2
      exact (mem_states_dropState.1 hs).2 rfl

theorem WellFormed.resolve?_zero (h : a.WellFormed) : a.resolve? (.id 0) = none := by
  have hzero : (0 : StateId) ∉ a.states := fun hs => Int.lt_irrefl 0 (h.positive 0 hs)
  exact if_neg hzero

theorem setStart?_discerns (h : a.WellFormed) (r : StateRef) :
    a.Discerns (a.Meets (.setStart r)) (a.setStart? r) := by
  unfold setStart?
  by_cases hr : r = .id 0
  · subst hr
    rw [if_pos rfl]
    by_cases ha : a.start = none
    · rw [if_pos ha]
      -- Zero names no state, so the other half of what is asked for is empty.
      exact .nothing ⟨fun _ => ha, by simp [h.resolve?_zero]⟩
    · rw [if_neg ha]
      exact .change (fun hmet => ha (hmet.1 rfl)) fun hsame => ha hsame.start_eq.symm
  · rw [if_neg hr]
    cases hs : a.resolve? r with
    | none => exact .nothing ⟨fun e => absurd e hr, by simp [hs]⟩
    | some s =>
        dsimp only
        by_cases ha : a.start = some s
        · rw [if_pos ha]
          exact .nothing ⟨fun e => absurd e hr, by simp [hs, ha]⟩
        · rw [if_neg ha]
          exact .change (fun hmet => ha (hmet.2 s hs)) fun hsame => ha hsame.start_eq.symm

theorem setAccept?_discerns (r : StateRef) (accept : Bool) :
    a.Discerns (a.Meets (.setAccept r accept)) (a.setAccept? r accept) := by
  unfold setAccept?
  cases hs : a.resolve? r with
  | none => exact .nothing (by simp [Meets, hs])
  | some s =>
      have hmet : a.Meets (.setAccept r accept) ↔ (s ∈ a.accept ↔ accept = true) := by
        simp [Meets, hs]
      dsimp only
      by_cases ha : decide (s ∈ a.accept) = accept
      · rw [if_pos ha]
        exact .nothing (hmet.2 (by rw [← ha, decide_eq_true_iff]))
      · rw [if_neg ha]
        refine .change (fun h => ha ?_) fun hsame => ha ?_
        · rw [Bool.eq_iff_iff, decide_eq_true_iff]
          exact hmet.1 h
        · -- Were the sets the same, the state would accept before iff it does after.
          have hset := hsame.accept_eq
          rw [Bool.eq_iff_iff, decide_eq_true_iff, ← hset]
          cases accept <;> simp

theorem toggleAccept?_discerns (r : StateRef) :
    a.Discerns (a.Meets (.toggleAccept r)) (a.toggleAccept? r) := by
  refine (setAccept?_discerns r _).congr ?_
  cases hs : a.resolve? r with
  | none => simp [Meets, hs]
  | some s =>
      by_cases ha : s ∈ a.accept <;> simp [Meets, isAccept, namesStateIn, hs, ha]

theorem setName?_discerns (h : a.WellFormed) {r : StateRef} {name : Json}
    (hname : name.isEqual name = true) :
    a.Discerns (a.Meets (.setName r name)) (a.setName? r name) := by
  unfold setName?
  cases hs : a.resolve? r with
  | none => exact .nothing (by simp [Meets, hs])
  | some s =>
      obtain ⟨n, hn⟩ := h.mem_states_iff_name.1 (resolve?_eq_some_iff.1 hs).2
      have hmet : a.Meets (.setName r name) ↔ n.isEqual name = true := by simp [Meets, hs, hn]
      dsimp only
      rw [hn, Option.any_some]
      by_cases heq : n.isEqual name = true
      · rw [if_pos heq]
        exact .nothing (hmet.2 heq)
      · rw [if_neg heq]
        refine .change (mt hmet.1 heq) fun hsame => heq ?_
        obtain rfl | hn' := hsame.names s n name hn (OrderedMap.get?_insert_self _ _ _)
        · exact hname
        · exact hn'

/-! ## §3. Changes of edges. -/

/-- A change of symbols is not what the edge has already. -/
theorem label?_ne_of_relabel? {o t : StateId} {g : SymbolSet}
    (h : a.relabel? o t g = some b) :
    a.table.label? o t ≠ if g.isEmpty then none else some g := by
  obtain ⟨rfl, hdrop⟩ | ⟨hg, hne, _⟩ := relabel?_eq_some h
  · obtain ⟨⟨g', hl⟩, _⟩ := dropEdge?_eq_some hdrop
    rw [hl, if_pos (SymbolSet.isEmpty_iff.2 rfl)]
    nofun
  · rw [if_neg (mt SymbolSet.isEmpty_iff.1 hg)]
    exact hne

theorem relabel?_discerns (h : a.WellFormed) (o t : StateId) (g : SymbolSet) :
    a.Discerns (∀ x, a.table.Carries o t x ↔ x ∈ g) (a.relabel? o t g) := by
  refine Discerns.congr ?_ h.carries_iff_label?.symm
  cases hb : a.relabel? o t g with
  | none =>
      refine .nothing ?_
      obtain ⟨rfl, hl⟩ | hl := relabel?_eq_none hb
      · rw [hl, if_pos (SymbolSet.isEmpty_iff.2 rfl)]
      · rw [hl, if_neg (mt SymbolSet.isEmpty_iff.1 (h.label_nonempty o t g hl))]
  | some b =>
      have hne := label?_ne_of_relabel? hb
      refine .change hne (not_sameParts_of_label? (p := o) (q := t) ?_)
      -- The new label is what the old one is not.
      rw [label?_of_relabel? hb, if_pos ⟨rfl, rfl⟩]
      exact hne.symm

theorem setTransition?_discerns (h : a.WellFormed) {o t : StateRef} {label : Label}
    {result : Option Automaton} (hr : a.setTransition? o t label = .ok result) :
    a.Discerns (a.Meets (.setTransition o t label)) result := by
  unfold setTransition? at hr
  cases ho : a.resolve? o with
  | none =>
      rw [ho] at hr
      cases hr
      exact .nothing (by simp [Meets, ho])
  | some p =>
      cases ht : a.resolve? t with
      | none =>
          rw [ho, ht] at hr
          cases hr
          exact .nothing (by simp [Meets, ht])
      | some q =>
          rw [ho, ht] at hr
          -- Only now is the label read, and what it reads as is put on the edge.
          obtain ⟨g, hg, hr⟩ := bind_eq_ok.1 hr
          cases hr
          refine (relabel?_discerns h p q g).congr ?_
          simp [Meets, ho, ht, hg]

theorem dropEdge?_discerns (o t : StateId) :
    a.Discerns (a.table.label? o t = none) (a.dropEdge? o t) := by
  cases hb : a.dropEdge? o t with
  | none =>
      refine .nothing ?_
      unfold dropEdge? at hb
      cases hl : a.table.label? o t with
      | none => rfl
      | some g => simp [hl] at hb
  | some b =>
      obtain ⟨⟨g, hl⟩, rfl⟩ := dropEdge?_eq_some hb
      refine .change (by simp [hl]) (not_sameParts_of_label? (p := o) (q := t) ?_)
      rw [label?_withRow, if_pos rfl, OrderedMap.get?_erase, if_pos rfl, hl]
      nofun

theorem removeTransition?_discerns (o t : StateRef) :
    a.Discerns (a.Meets (.removeTransition o t)) (a.removeTransition? o t) := by
  unfold removeTransition?
  cases ho : a.resolve? o with
  | none => exact .nothing (by simp [Meets, label?, ho])
  | some p =>
      cases ht : a.resolve? t with
      | none => exact .nothing (by simp [Meets, label?, ho, ht])
      | some q => exact (dropEdge?_discerns p q).congr (by simp [Meets, label?, ho, ht])

theorem moveEdge?_discerns (o x y : StateId) :
    a.Discerns (x = y ∨ a.table.label? o x = none) (a.moveEdge? o x y) := by
  cases hb : a.moveEdge? o x y with
  | none =>
      refine .nothing ?_
      unfold moveEdge? at hb
      by_cases hxy : x = y
      · exact Or.inl hxy
      · rw [if_neg hxy] at hb
        cases hl : a.table.label? o x with
        | none => exact Or.inr rfl
        | some g => simp [hl] at hb
  | some b =>
      obtain ⟨hxy, g, hl, _⟩ := moveEdge?_eq_some hb
      refine .change (by simp [hxy, hl]) (not_sameParts_of_label? (p := o) (q := x) ?_)
      rw [label?_old_of_moveEdge? hb, hl]
      nofun

theorem setTransitionTarget?_discerns (o old new : StateRef) :
    a.Discerns (a.Meets (.setTransitionTarget o old new))
      (a.setTransitionTarget? o old new) := by
  unfold setTransitionTarget?
  cases ho : a.resolve? o with
  | none => exact .nothing (by simp [Meets, ho])
  | some p =>
      cases hx : a.resolve? old with
      | none => exact .nothing (by simp [Meets, hx])
      | some x =>
          cases hy : a.resolve? new with
          | none => exact .nothing (by simp [Meets, hy])
          | some y => exact (moveEdge?_discerns p x y).congr (by simp [Meets, ho, hx, hy])

/-! ## §4. Changes of the alphabet, trimming and completion. -/

theorem setAlphabet?_discerns {label : Label} {result : Option Automaton}
    (hr : a.setAlphabet? (some label) = .ok result) :
    a.Discerns (a.Meets (.setAlphabet (some label))) result := by
  obtain ⟨alphabet, hread, hr⟩ := bind_eq_ok.1 hr
  obtain ⟨g, hg, hread'⟩ := bind_eq_ok.1 hread
  cases hread'
  cases hr
  have hmet : a.Meets (.setAlphabet (some label)) ↔ a.alphabet = some g.withoutEmpty := by
    simp [Meets, hread]
  unfold withAlphabet?
  cases ha : a.alphabet with
  | none => exact .change (by rw [hmet, ha]; nofun) fun h => by cases h.alphabet_eq.trans ha
  | some current =>
      dsimp only
      rw [Option.getD_some]
      by_cases hc : current = g.withoutEmpty
      · rw [if_pos hc]
        exact .nothing (hmet.2 (by rw [ha, hc]))
      · rw [if_neg hc]
        refine .change (fun h => hc ?_) fun h => hc ?_
        · exact Option.some.inj (ha.symm.trans (hmet.1 h))
        · exact Option.some.inj (ha.symm.trans h.alphabet_eq.symm)

theorem unsetAlphabet?_discerns : a.Discerns (a.Meets .unsetAlphabet) a.unsetAlphabet? := by
  unfold unsetAlphabet?
  cases ha : a.alphabet with
  | none => exact .nothing ha
  | some g =>
      exact .change (by simp [Meets, ha]) fun h => by cases ha.symm.trans h.alphabet_eq.symm

theorem trim?_discerns (h : a.WellFormed) : a.Discerns (a.Meets .trim) a.trim? := by
  cases hb : a.trim? with
  | none => exact .nothing (h.isTrimmed_iff_trim?_eq_none.2 hb)
  | some b =>
      have hne : a.trim? ≠ none := by simp [hb]
      refine .change (mt h.isTrimmed_iff_trim?_eq_none.1 hne) fun hsame => hne ?_
      have htrim : a.trim = b := by rw [trim, hb, Option.getD_some]
      -- The states that are left are those that are kept.
      rw [trim?_eq_none_iff, ← h.states_trim, htrim, hsame.states_eq]

theorem complete?_discerns {supply : IdSupply} (h : a.SuppliedBy supply) :
    a.Discerns (a.Meets .complete) (a.complete? supply).1 := by
  obtain ⟨hcovers, hnone⟩ | ⟨c, sink, hsome, hc⟩ := h.complete?_spec
  · rw [hnone]
    exact .nothing hcovers
  · rw [hsome]
    refine .change hc.uncovered fun hsame => hc.uncovered ?_
    -- With the same states and edges the automaton would cover what the result does.
    intro s hs x hx
    rw [← hsame.states_eq] at hs
    rw [← hsame.table_eq]
    exact hc.covers s hs x hx

/-! ## §5. Edits. -/

/-- **Every edit answers nothing if what it asks for is so already, and otherwise an
automaton with other parts.** -/
theorem edit_discerns {supply : IdSupply} (h : a.SuppliedBy supply) {e : Edit}
    (hproper : e.Proper) {d : Edited} (he : a.edit supply e = .ok d) :
    a.Discerns (a.Meets e) d.automaton := by
  have hwf := h.wellFormed
  cases e with
  | addState name =>
      cases he
      refine .change id fun hsame => h.next_not_mem ?_
      rw [← hsame.states_eq]
      exact mem_states_addState.2 (Or.inl rfl)
  | removeState r =>
      cases he
      exact removeState?_discerns r
  | setTransition o t label =>
      obtain ⟨result, hr, he⟩ := bind_eq_ok.1 he
      cases he
      exact setTransition?_discerns hwf (mapError_eq_ok.1 hr)
  | setTransitionTarget o old new =>
      cases he
      exact setTransitionTarget?_discerns o old new
  | removeTransition o t =>
      cases he
      exact removeTransition?_discerns o t
  | setStart r =>
      cases he
      exact setStart?_discerns hwf r
  | setAccept r accept =>
      cases he
      exact setAccept?_discerns r accept
  | toggleAccept r =>
      cases he
      exact toggleAccept?_discerns r
  | setName r name =>
      cases he
      exact setName?_discerns hwf hproper
  | setAlphabet label =>
      obtain ⟨result, hr, he⟩ := bind_eq_ok.1 he
      cases he
      cases label with
      -- To set no alphabet where there is none would answer a copy.
      | none => exact absurd rfl hproper
      | some label => exact setAlphabet?_discerns (mapError_eq_ok.1 hr)
  | unsetAlphabet =>
      cases he
      exact unsetAlphabet?_discerns
  | trim =>
      cases he
      exact trim?_discerns hwf
  | complete =>
      cases he
      exact complete?_discerns h

/-- **An edit of a state that is not there does nothing**, whatever else it is given,
and symbols are not even read.  Only zero stands for something as a start. -/
theorem edit_of_unknown {supply : IdSupply} {e : Edit} {r : StateRef}
    (hr : r ∈ e.references) (hnone : a.resolve? r = none) (hzero : e ≠ .setStart (.id 0)) :
    a.edit supply e = .ok ⟨none, none, supply⟩ := by
  cases e with
  | addState _ | setAlphabet _ | unsetAlphabet | trim | complete => cases hr
  | removeState s =>
      obtain rfl := List.mem_singleton.1 hr
      simp [edit, removeState?, hnone]
  | setStart s =>
      obtain rfl := List.mem_singleton.1 hr
      have hne : r ≠ .id 0 := fun e => hzero (e ▸ rfl)
      simp [edit, setStart?, hne, hnone]
  | setAccept s accept =>
      obtain rfl := List.mem_singleton.1 hr
      simp [edit, setAccept?, hnone]
  | toggleAccept s =>
      obtain rfl := List.mem_singleton.1 hr
      simp [edit, toggleAccept?, setAccept?, hnone]
  | setName s name =>
      obtain rfl := List.mem_singleton.1 hr
      simp [edit, setName?, hnone]
  | setTransition o t label =>
      have hread : a.setTransition? o t label = .ok none := by
        unfold setTransition?
        obtain rfl | hr := List.mem_cons.1 hr
        · rw [hnone]
        · obtain rfl := List.mem_singleton.1 hr
          rw [hnone]
          cases a.resolve? o <;> rfl
      simp only [edit, hread]
      rfl
  | removeTransition o t =>
      have hnothing : a.removeTransition? o t = none := by
        unfold removeTransition?
        obtain rfl | hr := List.mem_cons.1 hr
        · rw [hnone]
        · obtain rfl := List.mem_singleton.1 hr
          rw [hnone]
          cases a.resolve? o <;> rfl
      simp only [edit, hnothing]
  | setTransitionTarget o old new =>
      have hnothing : a.setTransitionTarget? o old new = none := by
        unfold setTransitionTarget?
        obtain rfl | hr := List.mem_cons.1 hr
        · rw [hnone]
        · obtain rfl | hr := List.mem_cons.1 hr
          · rw [hnone]
            cases a.resolve? o <;> rfl
          · obtain rfl := List.mem_singleton.1 hr
            rw [hnone]
            cases a.resolve? o <;> cases a.resolve? old <;> rfl
      simp only [edit, hnothing]

end Automaton

/-! ## §6. Versions. -/

/-- With memory an edit has the result that it has without. -/
theorem Analysed.map_result_eq {x : Analysed} {supply : IdSupply} {e : Edit} {o : Outcome}
    {d : Edited} (h : x.Sound) (hs : x.automaton.SuppliedBy supply)
    (ho : x.edit supply e = .ok o) (hd : x.automaton.edit supply e = .ok d) :
    o.result.map (·.automaton) = d.automaton := by
  obtain ⟨_, hfails, _⟩ | ⟨o', d', ho', hd', hfollows⟩ := edit_follows h hs e
  · cases ho.symm.trans hfails
  · cases ho.symm.trans ho'
    cases hd.symm.trans hd'
    exact hfollows.result_eq

namespace Workspace

variable {w : Workspace} {v : VersionId} {e : Edit}

/-- An edit answers the version that it is made on iff there is no result. -/
theorem version_eq_iff_of_perform (hv : v < w.versions.size) {done : Performed}
    (hdone : w.perform v e = .ok done) :
    ∃ o, (w.version v).content.edit (w.supply (w.version v).lineage) e = .ok o
      ∧ (done.version = v ↔ o.result = none) := by
  obtain ⟨o, ho, hdone⟩ := bind_eq_ok.1 hdone
  refine ⟨o, ho, ?_⟩
  cases hr : o.result with
  | none =>
      simp only [hr, pure, Except.pure, Except.ok.injEq] at hdone
      subst hdone
      exact iff_of_true rfl rfl
  | some x =>
      simp only [hr, pure, Except.pure, Except.ok.injEq] at hdone
      subst hdone
      -- What is answered stands behind all versions that there were.
      have hsize : (w.remember v o.source).versions.size = w.versions.size := Array.size_modify
      exact iff_of_false (fun hsame => Nat.ne_of_gt hv (hsize.symm.trans hsame)) nofun

/-- An edit of a version is the edit of its automaton, and it answers the version
itself iff the automaton answers nothing. -/
theorem Sound.perform_eq_ok (h : w.Sound) (hv : v < w.versions.size) {done : Performed}
    (hdone : w.perform v e = .ok done) :
    ∃ d, (w.automaton v).edit (w.supply (w.version v).lineage) e = .ok d
      ∧ (done.version = v ↔ d.automaton = none)
      ∧ done.workspace.automaton done.version = d.automaton.getD (w.automaton v) := by
  obtain ⟨err, _, hfails⟩ | ⟨d, done', hedit, hdone', _, hd⟩ := (holds_self hv).perform_cases h e
  · cases hdone.symm.trans hfails
  · cases hdone.symm.trans hdone'
    obtain ⟨o, ho, hversion⟩ := version_eq_iff_of_perform hv hdone
    have hx := h v _ (getElem?_version hv)
    have hresult : o.result.map (·.automaton) = d.automaton :=
      Analysed.map_result_eq hx.content hx.inLineage.suppliedBy ho hedit
    refine ⟨d, hedit, ?_, hd.automaton_eq⟩
    rw [hversion, ← hresult, Option.map_eq_none_iff]

end Workspace

namespace Session

/-- **An edit answers its receiver iff it changes nothing.**  In any session, whether
an edit is made as a call or as a command, the version that it answers is the one
that it was made on iff start, states, names, accepting states, edges and alphabet
of what is answered are those of the receiver, and iff what the edit asks for is so
already.  An edit of a state that is not there is one that succeeds and answers its
receiver, whatever symbols it is given. -/
theorem perform_answers_receiver_iff (calls : List Call) {v : VersionId}
    (hv : v < (empty.serveAll calls).workspace.versions.size) (e : Edit) :
    let w := (empty.serveAll calls).workspace
    w.performCommand v (.edit e) = w.perform v e
      ∧ (e.Proper → ∀ done, w.perform v e = .ok done →
          (done.version = v
              ↔ (w.automaton v).SameParts (done.workspace.automaton done.version))
            ∧ (done.version = v ↔ (w.automaton v).Meets e))
      ∧ ∀ r ∈ e.references, (w.automaton v).resolve? r = none → e ≠ .setStart (.id 0) →
          ∃ done, w.perform v e = .ok done ∧ done.version = v := by
  intro w
  have hw : w.Sound := (sound_empty.serveAll calls).workspace
  refine ⟨rfl, ?_, ?_⟩
  · intro hproper done hdone
    obtain ⟨d, hedit, hversion, hautomaton⟩ := hw.perform_eq_ok hv hdone
    have hmember := (hw v _ (Workspace.getElem?_version hv)).inLineage
    have hd := Automaton.edit_discerns hmember.suppliedBy hproper hedit
    rw [hversion, hautomaton]
    exact ⟨hd.eq_none_iff_sameParts, hd.eq_none_iff⟩
  · intro r hr hnone hzero
    have hnothing : (w.automaton v).edit (w.supply (w.version v).lineage) e
        = .ok ⟨none, none, _⟩ := Automaton.edit_of_unknown hr hnone hzero
    obtain ⟨err, hfails, _⟩ | ⟨_, done, _, hdone, _⟩ :=
      (Workspace.holds_self hv).perform_cases hw e
    · cases hnothing.symm.trans hfails
    · obtain ⟨d, hedit, hversion, _⟩ := hw.perform_eq_ok hv hdone
      cases hnothing.symm.trans hedit
      exact ⟨done, hdone, hversion.2 rfl⟩

/-- The label that is there is given again, and then one that cannot be read, for an
edge to a state that is not there any more. -/
theorem perform_answers_receiver_iff_threeStates :
    let w := (empty.serveAll threeStates).workspace
    (∃ done, w.perform 7 (.setTransition (.id 1) (.id 2) (.text "a")) = .ok done
        ∧ done.version = 7 ∧ (w.automaton 7).Meets (.setTransition (.id 1) (.id 2) (.text "a"))
        ∧ (w.automaton 7).SameParts (done.workspace.automaton done.version))
      ∧ (SymbolSet.read "z-a").toOption = none
      ∧ ∃ done, w.perform 7 (.setTransition (.id 1) (.id 3) (.text "z-a")) = .ok done
          ∧ done.version = 7 := by
  intro w
  have hsize : 7 < w.versions.size := by decide +kernel
  constructor
  · obtain ⟨_, hiff, _⟩ := perform_answers_receiver_iff threeStates hsize
      (.setTransition (.id 1) (.id 2) (.text "a"))
    have hanswer : (w.perform 7 (.setTransition (.id 1) (.id 2) (.text "a"))).toOption.map
        (·.version) = some 7 := by decide +kernel
    cases hdone : w.perform 7 (.setTransition (.id 1) (.id 2) (.text "a")) with
    | error err => rw [hdone] at hanswer; cases hanswer
    | ok done =>
        rw [hdone] at hanswer
        have hversion : done.version = 7 := Option.some.inj hanswer
        obtain ⟨hsame, hmet⟩ := hiff trivial done hdone
        exact ⟨done, rfl, hversion, hmet.1 hversion, hsame.1 hversion⟩
  · obtain ⟨_, _, hunknown⟩ := perform_answers_receiver_iff threeStates hsize
      (.setTransition (.id 1) (.id 3) (.text "z-a"))
    exact ⟨by decide +kernel,
      hunknown (.id 3) (by simp [Edit.references]) (by decide +kernel) nofun⟩

end Session

end FiniteAutomata
