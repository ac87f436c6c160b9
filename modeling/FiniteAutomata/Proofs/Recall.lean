/-
  FiniteAutomata.Proofs.Recall
  ────────────────────────────
  **MEMORY CHANGES NO ANSWER.**

  An automaton that remembers its analyses is compared with the automaton by
  itself.  As long as its memory is sound,

      answer_recalls     a question is answered by what analysis gives, and the
                         memory is sound afterwards
      edit_follows       an edit does what it does to the automaton by itself,
                         and what is remembered of the result is sound

  Only an edit that adds a state needs more than that: the new state must be
  none that is already there, which `SuppliedBy` says.
-/
import FiniteAutomata.Automaton.Question
import FiniteAutomata.Proofs.Survival
import FiniteAutomata.Proofs.WellFormed

namespace FiniteAutomata

/-! ## §1. Runs that are always accepting. -/

namespace Run

/-- A run that never strays from the accepting states ends in one. -/
theorem meets_of_not_strays {a : Automaton} {r : Run} {w : List Char}
    (h : r.strays a w = false) : (r.advanceAll a.table w).meets a.accept = true := by
  induction w generalizing r with
  | nil =>
      unfold strays at h
      rwa [Bool.not_eq_false'] at h
  | cons c w ih =>
      unfold strays at h
      rw [Bool.or_eq_false_iff] at h
      exact ih h.2

end Run

theorem Automaton.accepts_of_not_strays {a : Automaton} {w : List Char}
    (h : (Run.begin a).strays a w = false) : a.accepts w = true := by
  rw [accepts_iff]
  obtain ⟨f, hf, hacc⟩ := Run.meets_iff.1 (Run.meets_of_not_strays h)
  obtain ⟨s, hs, hpath⟩ := Run.mem_current_advanceAll_begin.1 hf
  exact ⟨s, hs, f, hacc, hpath⟩

namespace Analysed

/-! ## §2. Reading. -/

/-- What reading must give: the value of the analysis, and the same automaton with
a memory that is sound. -/
structure Recalls {α : Type} (x : Analysed) (value : α) (r : α × Analysed) : Prop where
  value_eq : r.1 = value
  automaton_eq : r.2.automaton = x.automaton
  sound : r.2.Sound

variable {x : Analysed}

theorem Recalls.map {α β : Type} {value : α} {r : α × Analysed} (h : x.Recalls value r)
    (f : α → β) : x.Recalls (f value) (r.map f id) :=
  ⟨congrArg f h.value_eq, h.automaton_eq, h.sound⟩

theorem reachableStates_recalls (h : x.Sound) :
    x.Recalls x.automaton.reachableStates x.reachableStates := by
  unfold reachableStates
  cases hm : x.memo.reachable with
  | some s => exact ⟨h.reachable s hm, rfl, h⟩
  | none =>
      refine ⟨rfl, rfl, { h with reachable := ?_ }⟩
      intro s hs
      injection hs with hs
      exact hs.symm

theorem generatingStates_recalls (h : x.Sound) :
    x.Recalls x.automaton.generatingStates x.generatingStates := by
  unfold generatingStates
  cases hm : x.memo.generating with
  | some s => exact ⟨h.generating s hm, rfl, h⟩
  | none =>
      refine ⟨rfl, rfl, { h with generating := ?_ }⟩
      intro s hs
      injection hs with hs
      exact hs.symm

theorem isDeterministic_recalls (h : x.Sound) :
    x.Recalls x.automaton.isDeterministic x.isDeterministic := by
  unfold isDeterministic
  cases hm : x.memo.deterministic with
  | some b => exact ⟨h.deterministic b hm, rfl, h⟩
  | none =>
      refine ⟨rfl, rfl, { h with deterministic := ?_ }⟩
      intro b hb
      injection hb with hb
      exact hb.symm

theorem minimalAlphabet_recalls (h : x.Sound) :
    x.Recalls x.automaton.minimalAlphabet x.minimalAlphabet := by
  unfold minimalAlphabet
  cases hm : x.memo.minimalAlphabet with
  | some s => exact ⟨h.minimalAlphabet s hm, rfl, h⟩
  | none =>
      refine ⟨rfl, rfl, { h with minimalAlphabet := ?_ }⟩
      intro s hs
      injection hs with hs
      exact hs.symm

theorem effectiveAlphabet_recalls (h : x.Sound) :
    x.Recalls x.automaton.effectiveAlphabet x.effectiveAlphabet := by
  unfold effectiveAlphabet Automaton.effectiveAlphabet
  cases x.automaton.alphabet with
  | some s => exact ⟨rfl, rfl, h⟩
  | none => exact minimalAlphabet_recalls h

theorem isTrimmed_recalls (h : x.Sound) :
    x.Recalls x.automaton.isTrimmed x.isTrimmed := by
  have hg := generatingStates_recalls h
  have hr := reachableStates_recalls hg.sound
  have hauto : x.generatingStates.2.reachableStates.2.automaton = x.automaton :=
    hr.automaton_eq.trans hg.automaton_eq
  refine ⟨?_, hauto, hr.sound⟩
  show x.generatingStates.2.reachableStates.2.automaton.isTrimmedFor
    x.generatingStates.2.reachableStates.1 x.generatingStates.1 = _
  rw [hauto, hr.value_eq, hg.automaton_eq, hg.value_eq]
  rfl

theorem accepts_recalls (h : x.Sound) (word : List Char) :
    x.Recalls (x.automaton.accepts word) (x.accepts word) := by
  unfold accepts
  by_cases hs : (Run.begin x.automaton).strays x.automaton word = true
  · rw [if_pos hs]
    have hg := generatingStates_recalls h
    refine ⟨?_, hg.automaton_eq, hg.sound⟩
    show x.generatingStates.2.automaton.acceptsFor x.generatingStates.1 word = _
    rw [hg.automaton_eq, hg.value_eq]
    exact Automaton.acceptsFor_generatingStates x.automaton word
  · rw [if_neg hs]
    rw [Bool.not_eq_true] at hs
    exact ⟨(Automaton.accepts_of_not_strays hs).symm, rfl, h⟩

/-- **A question is answered by what analysis gives.** -/
theorem answer_recalls (h : x.Sound) (q : Question) :
    x.Recalls (x.automaton.answer q) (x.answer q) := by
  cases q with
  | reachableStates => exact (reachableStates_recalls h).map Answer.states
  | generatingStates => exact (generatingStates_recalls h).map Answer.states
  | isDeterministic => exact (isDeterministic_recalls h).map Answer.truth
  | minimalAlphabet => exact (minimalAlphabet_recalls h).map Answer.symbols
  | effectiveAlphabet => exact (effectiveAlphabet_recalls h).map Answer.symbols
  | isTrimmed => exact (isTrimmed_recalls h).map Answer.truth
  | isReachable s =>
      exact (reachableStates_recalls h).map fun set =>
        Answer.truth (x.automaton.namesStateIn s set)
  | isGenerating s =>
      exact (generatingStates_recalls h).map fun set =>
        Answer.truth (x.automaton.namesStateIn s set)
  | accepts word => exact (accepts_recalls h word).map Answer.truth

/-! ## §3. Edits that analyse nothing. -/

/-- An edit with memory does what the edit does, and leaves sound memories. -/
structure Follows (x : Analysed) (o : Outcome) (d : Edited) : Prop where
  source_eq : o.source.automaton = x.automaton
  source_sound : o.source.Sound
  result_eq : o.result.map (·.automaton) = d.automaton
  result_sound : ∀ y, o.result = some y → y.Sound
  added_eq : o.added = d.added
  supply_eq : o.supply = d.supply

theorem follows_derive (h : x.Sound) (supply : IdSupply) (result : Option Automaton)
    (memo : Memo) (hm : ∀ b, result = some b → memo.Sound b) :
    x.Follows ⟨x, derive result memo, none, supply⟩ ⟨result, none, supply⟩ where
  source_eq := rfl
  source_sound := h
  result_eq := by cases result <;> rfl
  result_sound y hy := by
    cases result with
    | none => cases hy
    | some b =>
        injection hy with hy
        subst hy
        exact hm b rfl
  added_eq := rfl
  supply_eq := rfl

/-- The same for an edit that reads symbols first, which may fail. -/
theorem follows_read (h : x.Sound) (supply : IdSupply)
    (read : Except SymbolError (Option Automaton)) (memo : Option Automaton → Memo)
    (hm : ∀ b, read = .ok (some b) → (memo (some b)).Sound b) :
    (∃ err, (read.mapError EditError.symbol >>= fun result =>
            .ok (Outcome.mk x (derive result (memo result)) none supply)) = .error err
        ∧ (read.mapError EditError.symbol >>= fun result =>
            .ok (Edited.mk result none supply)) = .error err)
      ∨ ∃ o d, (read.mapError EditError.symbol >>= fun result =>
            .ok (Outcome.mk x (derive result (memo result)) none supply)) = .ok o
          ∧ (read.mapError EditError.symbol >>= fun result =>
            .ok (Edited.mk result none supply)) = .ok d
          ∧ x.Follows o d := by
  cases read with
  | error err => exact Or.inl ⟨.symbol err, rfl, rfl⟩
  | ok result =>
      refine Or.inr ⟨_, _, rfl, rfl, follows_derive h supply result (memo result) ?_⟩
      intro b hb
      subst hb
      exact hm b rfl

theorem sound_afterRemoval_dropEdge (h : x.Sound) {o t : StateId} {b : Automaton}
    (hb : x.automaton.dropEdge? o t = some b) : x.memo.afterRemoval.Sound b := by
  obtain ⟨_, rfl⟩ := Automaton.dropEdge?_eq_some hb
  apply Memo.Sound.afterRemoval h
  intro p q g hl
  rw [Automaton.label?_withRow, OrderedMap.get?_erase] at hl
  by_cases hp : p = o
  · by_cases hq : q = t
    · simp [hp, hq] at hl
    · rw [if_pos hp, if_neg hq] at hl
      rw [hp]
      exact hl
  · rw [if_neg hp] at hl
    exact hl

theorem sound_afterRemoval_dropState (h : x.Sound) (s : StateId) :
    x.memo.afterRemoval.Sound (x.automaton.dropState s) := by
  apply Memo.Sound.afterRemoval h
  intro p q g hl
  rw [Automaton.label?_dropState] at hl
  by_cases hpq : p = s ∨ q = s
  · simp [hpq] at hl
  · rw [if_neg hpq] at hl
    exact hl

theorem sound_afterRemoval_restrictTo (h : x.Sound) (keep : StateSet) :
    x.memo.afterRemoval.Sound (x.automaton.restrictTo keep) := by
  apply Memo.Sound.afterRemoval h
  intro p q g hl
  rw [Automaton.label?_restrictTo] at hl
  by_cases hpq : p ∈ keep ∧ q ∈ keep
  · rw [if_pos hpq] at hl
    exact hl
  · simp [hpq] at hl

/-- A new state has no edges, so everything that is remembered stays true. -/
theorem sound_addState (h : x.Sound) (hwf : x.automaton.WellFormed) {s : StateId}
    (hs : s ∉ x.automaton.states) (name : Json) :
    Sound ⟨x.automaton.addState s name, x.memo⟩ := by
  refine Memo.Sound.congr (b := x.automaton.addState s name) h rfl rfl ?_
  intro o q
  rw [Automaton.label?_addState]
  by_cases ho : o = s
  · rw [if_pos ho, ho]
    exact (hwf.label?_eq_none hs q).symm
  · rw [if_neg ho]

theorem sound_setTransition (h : x.Sound) {o t : StateRef} {label : Label}
    {b : Automaton} (hb : x.automaton.setTransition? o t label = .ok (some b)) :
    (x.memo.afterEdge (x.automaton.label? o t) (b.label? o t)).Sound b := by
  obtain ⟨p, q, g, hp, hq, _, hb⟩ := Automaton.setTransition?_eq_some hb
  obtain ⟨r, hrow⟩ := Automaton.relabel?_eq_withRow hb
  -- The names are unchanged, so both references name the same states afterwards.
  have hresolve : ∀ ref, b.resolve? ref = x.automaton.resolve? ref := by
    intro ref
    rw [hrow]
    rfl
  have hbefore : x.automaton.label? o t = x.automaton.table.label? p q := by
    unfold Automaton.label?
    rw [hp, hq]
  have hafter : b.label? o t = b.table.label? p q := by
    unfold Automaton.label?
    rw [hresolve, hresolve, hp, hq]
  rw [hbefore, hafter]
  apply Memo.Sound.afterEdge h
  · rw [hrow]
    rfl
  · rw [hrow]
    rfl
  · intro p' q' hne
    rw [Automaton.label?_of_relabel? hb, if_neg hne]

/-! ## §4. Trimming and completion. -/

theorem trim_follows (h : x.Sound) (supply : IdSupply) :
    x.Follows ⟨x.trim?.2, x.trim?.1, none, supply⟩ ⟨x.automaton.trim?, none, supply⟩ := by
  have hr := reachableStates_recalls h
  have hg := generatingStates_recalls hr.sound
  -- The second analysis finds the automaton as the first one left it.
  have hauto : x.reachableStates.2.generatingStates.2.automaton = x.automaton :=
    hg.automaton_eq.trans hr.automaton_eq
  have htrim : x.reachableStates.2.generatingStates.2.automaton.trimFor?
      x.reachableStates.1 x.reachableStates.2.generatingStates.1 = x.automaton.trim? := by
    rw [hauto, hr.value_eq, hg.value_eq, hr.automaton_eq]
    rfl
  have heq : x.trim?
      = (derive x.automaton.trim?
          x.reachableStates.2.generatingStates.2.memo.afterRemoval,
        x.reachableStates.2.generatingStates.2) := by
    rw [← htrim]
    rfl
  have hsound : ∀ b, x.automaton.trim? = some b →
      x.reachableStates.2.generatingStates.2.memo.afterRemoval.Sound b := by
    intro b hb
    rw [← htrim] at hb
    rw [Automaton.trimFor?_eq_some hb]
    exact sound_afterRemoval_restrictTo hg.sound _
  rw [heq]
  exact { follows_derive hg.sound supply _ _ hsound with source_eq := hauto }

theorem sound_route (h : x.Sound) (o sink : StateId) (g : SymbolSet) :
    (x.route o sink g).Sound := by
  obtain ⟨table, htable⟩ := Automaton.route_eq x.automaton o sink g
  show (x.memo.afterEdge (x.automaton.table.label? o sink)
    ((x.automaton.route o sink g).table.label? o sink)).Sound (x.automaton.route o sink g)
  apply Memo.Sound.afterEdge h
  · rw [htable]
  · rw [htable]
  · exact fun p q hne => Automaton.label?_route_of_ne g hne

theorem sound_routeAll (h : x.Sound) (sink : StateId)
    (missing : List (StateId × SymbolSet)) : (x.routeAll sink missing).Sound := by
  induction missing generalizing x with
  | nil => exact h
  | cons m missing ih => exact ih (sound_route h m.1 sink m.2)

theorem completeTowards_follows (h : x.Sound) {supply : IdSupply}
    (hs : x.automaton.SuppliedBy supply) (alphabet : SymbolSet) (sink : Option StateId)
    (missing : List (StateId × SymbolSet)) :
    (x.completeTowards alphabet sink missing supply).1.Sound
      ∧ (x.completeTowards alphabet sink missing supply).1.automaton
        = (x.automaton.completeTowards alphabet sink missing supply).1
      ∧ (x.completeTowards alphabet sink missing supply).2
        = (x.automaton.completeTowards alphabet sink missing supply).2 := by
  cases sink with
  | some sink => exact ⟨sound_routeAll h sink missing, automaton_routeAll x sink missing, rfl⟩
  | none =>
      have hgrown : Sound ⟨x.automaton.addState supply.next rejectStateName, x.memo⟩ :=
        sound_addState h hs.wellFormed hs.next_not_mem rejectStateName
      exact ⟨sound_routeAll hgrown _ _, automaton_routeAll _ _ _, rfl⟩

theorem complete_follows (h : x.Sound) {supply : IdSupply}
    (hs : x.automaton.SuppliedBy supply) :
    x.Follows (x.complete supply)
      ⟨(x.automaton.complete? supply).1, none, (x.automaton.complete? supply).2⟩ := by
  have ha := effectiveAlphabet_recalls h
  have hg := generatingStates_recalls ha.sound
  have hauto : x.effectiveAlphabet.2.generatingStates.2.automaton = x.automaton :=
    hg.automaton_eq.trans ha.automaton_eq
  unfold complete Automaton.complete?
  dsimp only
  rw [ha.automaton_eq, ha.value_eq]
  cases x.automaton.lacking x.automaton.effectiveAlphabet with
  | nil =>
      exact ⟨ha.automaton_eq, ha.sound, rfl, nofun, rfl, rfl⟩
  | cons m missing =>
      -- Two analyses come first, and both leave the automaton as it is.
      obtain ⟨hsound, hresult, hsupply⟩ := completeTowards_follows hg.sound
        (hauto ▸ hs) x.automaton.effectiveAlphabet
        (x.automaton.existingSink? x.automaton.generatingStates) (m :: missing)
      rw [hauto] at hresult hsupply
      dsimp only
      rw [hg.value_eq, ha.automaton_eq, hauto]
      refine ⟨hauto, hg.sound, congrArg some hresult, ?_, rfl, hsupply⟩
      intro y hy
      injection hy with hy
      exact hy ▸ hsound

/-! ## §5. Edits. -/

/-- **An edit with memory does what the edit does**, its failures among it, and
leaves sound memories. -/
theorem edit_follows (h : x.Sound) {supply : IdSupply}
    (hs : x.automaton.SuppliedBy supply) (e : Edit) :
    (∃ err, x.edit supply e = .error err ∧ x.automaton.edit supply e = .error err)
      ∨ ∃ o d, x.edit supply e = .ok o ∧ x.automaton.edit supply e = .ok d
          ∧ x.Follows o d := by
  cases e with
  | addState name =>
      refine Or.inr ⟨_, _, rfl, rfl, ⟨rfl, h, rfl, ?_, rfl, rfl⟩⟩
      intro y hy
      injection hy with hy
      exact hy ▸ sound_addState h hs.wellFormed hs.next_not_mem name
  | removeState r =>
      refine Or.inr ⟨_, _, rfl, rfl, follows_derive h supply _ _ ?_⟩
      intro b hb
      obtain ⟨s, _, rfl⟩ := Automaton.removeState?_eq_some hb
      exact sound_afterRemoval_dropState h s
  | setTransition o t label =>
      exact follows_read h supply _
        (fun result => x.memo.afterEdge (x.automaton.label? o t) (result.bind (·.label? o t)))
        fun b hb => sound_setTransition h hb
  | setTransitionTarget o old new =>
      refine Or.inr ⟨_, _, rfl, rfl, follows_derive h supply _ _ ?_⟩
      intro b hb
      obtain ⟨p, q, r, _, _, _, hb⟩ := Automaton.setTransitionTarget?_eq_some hb
      exact Memo.Sound.afterMove h hb
  | removeTransition o t =>
      refine Or.inr ⟨_, _, rfl, rfl, follows_derive h supply _ _ ?_⟩
      intro b hb
      obtain ⟨p, q, _, _, hb⟩ := Automaton.removeTransition?_eq_some hb
      exact sound_afterRemoval_dropEdge h hb
  | setStart r =>
      refine Or.inr ⟨_, _, rfl, rfl, follows_derive h supply _ _ ?_⟩
      intro b hb
      obtain ⟨start, _, rfl⟩ := Automaton.setStart?_eq_some hb
      exact Memo.Sound.afterStart h rfl rfl
  | setAccept r accept =>
      refine Or.inr ⟨_, _, rfl, rfl, follows_derive h supply _ _ ?_⟩
      intro b hb
      obtain ⟨set, _, rfl⟩ := Automaton.setAccept?_eq_some hb
      exact Memo.Sound.afterAccept h rfl rfl
  | toggleAccept r =>
      refine Or.inr ⟨_, _, rfl, rfl, follows_derive h supply _ _ ?_⟩
      intro b hb
      obtain ⟨set, _, rfl⟩ := Automaton.setAccept?_eq_some hb
      exact Memo.Sound.afterAccept h rfl rfl
  | setName r name =>
      refine Or.inr ⟨_, _, rfl, rfl, follows_derive h supply _ _ ?_⟩
      intro b hb
      obtain ⟨s, _, rfl⟩ := Automaton.setName?_eq_some hb
      exact Memo.Sound.congr h rfl rfl fun _ _ => rfl
  | setAlphabet alphabet =>
      refine follows_read h supply _ (fun _ => x.memo) ?_
      intro b hb
      obtain ⟨alphabet, _, rfl⟩ := Automaton.setAlphabet?_eq_some hb
      exact Memo.Sound.congr h rfl rfl fun _ _ => rfl
  | unsetAlphabet =>
      refine Or.inr ⟨_, _, rfl, rfl, follows_derive h supply _ _ ?_⟩
      intro b hb
      have hb' := Automaton.unsetAlphabet?_eq_some hb
      subst hb'
      exact Memo.Sound.congr h rfl rfl fun _ _ => rfl
  | trim => exact Or.inr ⟨_, _, rfl, rfl, trim_follows h supply⟩
  | complete => exact Or.inr ⟨_, _, rfl, rfl, complete_follows h hs⟩

end Analysed

end FiniteAutomata
