/-
  FiniteAutomata.Proofs.Simulations
  ─────────────────────────────────
  **WHATEVER IS DONE WITH A SIMULATION, ITS RUN FITS ITS AUTOMATON.**

  A simulation begins with an automaton, and goes on by acts and by changing to
  other automata, which may be of other lineages (`Simulation.Reachable`).  What
  ties its run to the automaton that it is on at the time is `Run.Fits`: states
  and followed edges are those of the automaton, the states are closed, and each
  edge without input that leaves one of them was followed just now.

      fits_settle              whatever settles in states of an automaton fits it
      Consistent.act           one act
      Consistent.withAutomaton one change of the automaton
      Reachable.consistent     all of it

  Main statement: what can be seen of any reachable simulation
  (`run_fits_automaton`).
-/
import FiniteAutomata.Proofs.Acceptance
import FiniteAutomata.Proofs.Lineage
import FiniteAutomata.Simulation.Basic

namespace FiniteAutomata

/-! ## §1. Edges stay among the states. -/

theorem Table.mem_edges_of_emptyEdges {t : Table} {e : Edge} (h : e ∈ t.emptyEdges) :
    e ∈ t.edges := by
  obtain ⟨g, hl, _⟩ := mem_emptyEdges.1 h
  exact mem_edges.2 ⟨g, hl⟩

namespace Automaton

variable {a : Automaton}

theorem mem_edges_of_hasEdge {e : Edge}
    (h : a.hasEdge (.id e.origin) (.id e.target) none = true) : e ∈ a.table.edges := by
  unfold hasEdge label? at h
  cases ho : a.resolve? (.id e.origin) with
  | none => simp [ho] at h
  | some o =>
      cases ht : a.resolve? (.id e.target) with
      | none => simp [ho, ht] at h
      | some t =>
          obtain ⟨ho', _⟩ := resolve?_eq_some_iff.1 ho
          obtain ⟨ht', _⟩ := resolve?_eq_some_iff.1 ht
          injection ho' with ho'
          injection ht' with ht'
          rw [Table.mem_edges, ho', ht']
          cases hl : a.table.label? o t with
          | none => simp [ho, ht, hl] at h
          | some g => exact ⟨g, rfl⟩

end Automaton

/-! ## §2. Runs that fit an automaton. -/

namespace Run

/-- `r.Fits a`: the run is in states of the automaton, and in all that edges
without input lead to; it has followed edges of the automaton, none of them later
than now; and it has followed just now every edge without input that leaves a
state it is in. -/
structure Fits (r : Run) (a : Automaton) : Prop where
  current_mem : ∀ q ∈ r.current, q ∈ a.states
  closed : r.Closed a.table
  followed_mem : ∀ e n, r.followed.get? e = some n → e ∈ a.table.edges ∧ n ≤ r.readCount
  empty_followed : ∀ e ∈ a.table.emptyEdges, e.origin ∈ r.current →
    r.followed.get? e = some r.readCount

variable {a b : Automaton} {r : Run}

theorem fits_settle (h : a.WellFormed) {states : StateSet} {taken : List Edge} {count : Nat}
    {followed : History} (hstates : ∀ q ∈ states, q ∈ a.states)
    (htaken : ∀ e ∈ taken, e ∈ a.table.edges)
    (hfollowed : ∀ e n, followed.get? e = some n → e ∈ a.table.edges ∧ n ≤ count) :
    (settle a.table states taken count followed).Fits a where
  current_mem q hq := by
    obtain ⟨s, hs, hl⟩ := mem_current_settle.1 hq
    exact h.mem_states_of_linked (hstates s hs) (path_nil_iff.2 hl).linked
  closed := closed_settle a.table states taken count followed
  followed_mem e n he := by
    rw [get?_followed_settle] at he
    by_cases hnew : e ∈ taken ∨ e ∈ (a.table.closure states).followed
    · rw [if_pos hnew] at he
      injection he with he
      refine ⟨?_, Nat.le_of_eq he.symm⟩
      obtain ht | hc := hnew
      · exact htaken e ht
      · exact Table.mem_edges_of_emptyEdges (mem_followed.1 hc).1
    · rw [if_neg hnew] at he
      exact hfollowed e n he
  empty_followed e he ho := by
    -- The closure follows every edge without input that leaves what it has seen.
    have hc : e ∈ (a.table.closure states).followed := mem_followed.2 ⟨he, ho⟩
    rw [get?_followed_settle, if_pos (Or.inr hc)]
    rfl

theorem fits_begin (h : a.WellFormed) : (begin a).Fits a := by
  unfold begin
  refine fits_settle h ?_ (fun e he => absurd he List.not_mem_nil) ?_
  · intro q hq
    cases hs : a.start with
    | none =>
        rw [hs] at hq
        exact absurd hq (OrderedSet.not_mem_empty q)
    | some s =>
        rw [hs] at hq
        have hqs : q = s := OrderedSet.mem_singleton.1 hq
        exact hqs ▸ h.start_mem s hs
  · intro e n he
    cases he

/-- The edges that read a character are edges, and later than all before. -/
theorem Fits.advance (h : r.Fits a) (ha : a.WellFormed) (c : Char) :
    (r.advance a.table c).Fits a := by
  have hmoves : ∀ e ∈ moves a.table r.current c, e ∈ a.table.edges := by
    intro e he
    obtain ⟨_, g, hl, _⟩ := mem_moves.1 he
    exact Table.mem_edges.2 ⟨g, hl⟩
  unfold Run.advance
  refine fits_settle ha ?_ hmoves ?_
  · intro q hq
    obtain ⟨e, he, rfl⟩ := mem_targetsOf.1 hq
    exact ha.target_mem_of_edge (hmoves e he)
  · intro e n he
    obtain ⟨hmem, hle⟩ := h.followed_mem e n he
    exact ⟨hmem, Nat.le_succ_of_le hle⟩

theorem Fits.advanceAll (h : r.Fits a) (ha : a.WellFormed) (w : List Char) :
    (r.advanceAll a.table w).Fits a := by
  induction w generalizing r with
  | nil => exact h
  | cons c w ih => exact ih (h.advance ha c)

/-- A run that stops at a rejection is the run after the part of the word that it
has read. -/
theorem exists_advanceLive_eq (a : Automaton) (generating : StateSet) (r : Run)
    (w : List Char) : ∃ u v, w = u ++ v
      ∧ r.advanceLive a generating w = (r.advanceAll a.table u, v) := by
  induction w generalizing r with
  | nil => exact ⟨[], [], rfl, rfl⟩
  | cons c w ih =>
      unfold advanceLive
      by_cases h : r.verdictFor a.accept generating = .reject
      · rw [if_pos h]
        exact ⟨[], c :: w, rfl, rfl⟩
      · rw [if_neg h]
        obtain ⟨u, v, hw, hlive⟩ := ih (r.advance a.table c)
        exact ⟨c :: u, v, congrArg (c :: ·) hw, hlive⟩

/-- What is left of a run on another automaton fits that one. -/
theorem Fits.moveTo (h : r.Fits a) (hb : b.WellFormed) : (r.moveTo b).Fits b := by
  unfold Run.moveTo
  refine fits_settle hb ?_ (fun e he => absurd he List.not_mem_nil) ?_
  · intro q hq
    exact (OrderedSet.mem_inter.1 hq).2
  · intro e n he
    rw [OrderedMap.get?_filter] at he
    obtain ⟨hold, hedge⟩ := Option.filter_eq_some_iff.1 he
    exact ⟨Automaton.mem_edges_of_hasEdge hedge, (h.followed_mem e n hold).2⟩

end Run

/-! ## §3. Simulations that can be reached. -/

namespace Simulation

/-- `s.Reachable`: acts and changes of the automaton lead to the simulation from
one that has not begun a run.  All automata are members of some lineage, and they
need not be of the same. -/
inductive Reachable : Simulation → Prop where
  | started {a : Automaton} {supply : IdSupply} (remaining : List Char) :
      InLineage a supply → Reachable (ofAutomaton a remaining)
  | acted {s s' : Simulation} (act : Act) : Reachable s → s.act act = .ok s' → Reachable s'
  | swapped {s : Simulation} {a : Automaton} {supply : IdSupply} : Reachable s →
      InLineage a supply → Reachable (s.withAutomaton a)

/-- The automaton is well-formed, and the run fits it if there is one. -/
structure Consistent (s : Simulation) : Prop where
  wellFormed : s.automaton.WellFormed
  fits : ∀ r, s.progress = some r → r.Fits s.automaton

namespace Consistent

variable {s s' : Simulation}

theorem withProgress (h : s.Consistent) {r : Run} (hr : r.Fits s.automaton)
    (remaining : List Char) : Consistent { s with remaining, progress := some r } where
  wellFormed := h.wellFormed
  fits _ hr' := Option.some.inj hr' ▸ hr

theorem withRemaining (h : s.Consistent) (remaining : List Char) :
    Consistent { s with remaining } :=
  ⟨h.wellFormed, h.fits⟩

theorem runOrBegin (h : s.Consistent) : s.runOrBegin.Fits s.automaton := by
  unfold Simulation.runOrBegin
  cases hr : s.progress with
  | none => exact Run.fits_begin h.wellFormed
  | some r => exact h.fits r hr

theorem step (h : s.Consistent) (hs : s.step = .ok s') : s'.Consistent := by
  unfold Simulation.step at hs
  cases hr : s.progress with
  | none => simp [hr] at hs
  | some r =>
      cases hw : s.remaining with
      | nil =>
          simp only [hr, hw, Except.ok.injEq] at hs
          exact hs ▸ h
      | cons c rest =>
          simp only [hr, hw, Except.ok.injEq] at hs
          exact hs ▸ h.withProgress ((h.fits r hr).advance h.wellFormed c) rest

theorem run (h : s.Consistent) (extra : List Char) : (s.run extra).Consistent := by
  obtain ⟨u, v, _, hlive⟩ := s.runOrBegin.exists_advanceLive_eq s.automaton
    s.automaton.generatingStates (s.remaining ++ extra)
  have hrun : s.run extra = { s with
      remaining := v, progress := some (s.runOrBegin.advanceAll s.automaton.table u) } := by
    unfold Simulation.run
    rw [hlive]
  rw [hrun]
  exact h.withProgress (h.runOrBegin.advanceAll h.wellFormed u) v

/-- **One act.** -/
theorem act (h : s.Consistent) {act : Act} (hs : s.act act = .ok s') : s'.Consistent := by
  cases act with
  | setInput text =>
      cases hs
      exact h.withRemaining text
  | addInput text =>
      cases hs
      exact h.withRemaining (s.remaining ++ text)
  | reset text =>
      cases hs
      exact h.withProgress (Run.fits_begin h.wellFormed) (text.getD s.remaining)
  | step => exact h.step hs
  | run extra =>
      cases hs
      exact h.run extra
  | runComplete extra =>
      cases hs
      exact h.withProgress (h.runOrBegin.advanceAll h.wellFormed (s.remaining ++ extra)) []
  | stop =>
      cases hs
      exact ⟨h.wellFormed, nofun⟩

/-- **One change of the automaton.** -/
theorem withAutomaton (h : s.Consistent) {b : Automaton} (hb : b.WellFormed) :
    (s.withAutomaton b).Consistent where
  wellFormed := hb
  fits r hr := by
    obtain ⟨r', hr', rfl⟩ := Option.map_eq_some_iff.1 hr
    exact (h.fits r' hr').moveTo hb

end Consistent

/-- **Everything that can be done.** -/
theorem Reachable.consistent {s : Simulation} (h : s.Reachable) : s.Consistent := by
  induction h with
  | started remaining ha => exact ⟨ha.suppliedBy.wellFormed, nofun⟩
  | acted act _ hs ih => exact ih.act hs
  | swapped _ ha ih => exact ih.withAutomaton ha.suppliedBy.wellFormed

/-! ## §4. What can be seen of a simulation. -/

/-- **The run of a simulation fits its automaton.**  Without a run nothing is
current or followed, and the count is shown as minus one.  A run is in states of
the automaton, and in every state that edges without input lead to from there; it
has followed edges of the automaton, none of them later than now; and the edges
without input that leave its states were followed last just now. -/
theorem run_fits_automaton {s : Simulation} (h : s.Reachable) :
    (s.isRunning = false → s.shownReadCount = -1 ∧ s.current = ∅ ∧ s.followed = ∅)
      ∧ (s.isRunning = true →
        0 ≤ s.shownReadCount
          ∧ (∀ q ∈ s.current, q ∈ s.automaton.states)
          ∧ (∀ p ∈ s.current, ∀ q, s.automaton.table.Carries p q .empty → q ∈ s.current)
          ∧ (∀ e n, s.followed.get? e = some n →
              (∃ g, s.automaton.table.label? e.origin e.target = some g)
                ∧ (0 : Int) ≤ n ∧ (n : Int) ≤ s.shownReadCount)
          ∧ ∀ p ∈ s.current, ∀ q, s.automaton.table.Carries p q .empty →
              ∃ n, s.followed.get? ⟨p, q⟩ = some n ∧ (n : Int) = s.shownReadCount) := by
  obtain ⟨_, hfits⟩ := h.consistent
  obtain ⟨a, remaining, progress⟩ := s
  cases progress with
  | none => exact ⟨fun _ => ⟨rfl, rfl, rfl⟩, nofun⟩
  | some r =>
      have hr : r.Fits a := hfits r rfl
      refine ⟨nofun, fun _ => ⟨Int.natCast_nonneg r.readCount, hr.current_mem, ?_, ?_, ?_⟩⟩
      · intro p hp q hq
        obtain ⟨g, hl, he⟩ := hq
        exact hr.closed p hp q (.silent hl he (.nil q))
      · intro e n he
        obtain ⟨hmem, hle⟩ := hr.followed_mem e n he
        exact ⟨Table.mem_edges.1 hmem, Int.natCast_nonneg n, Int.ofNat_le.2 hle⟩
      · intro p hp q hq
        have he : (⟨p, q⟩ : Edge) ∈ a.table.emptyEdges := Table.mem_emptyEdges.2 hq
        exact ⟨r.readCount, hr.empty_followed ⟨p, q⟩ he hp, rfl⟩

end Simulation

/-- One letter, with an edge back that reads nothing: the words `a`, `aa` and so
on. -/
def Automaton.someLetters : Automaton :=
  { Automaton.oneLetter with
    table := .ofList [(1, .ofList [(2, .letterA)]), (2, .ofList [(1, .onlyEmpty)])] }

theorem inLineage_someLetters : InLineage .someLetters .afterOneLetter :=
  inLineage_oneLetter.edited
    (e := .setTransition (.id 2) (.id 1) (.symbols .onlyEmpty)) rfl rfl

namespace Simulation

/-- A run that has read its letter when the edge back is put in. -/
def extended : Simulation :=
  (((ofAutomaton .oneLetter []).reset (some ['a'])).runComplete []).withAutomaton .someLetters

theorem reachable_extended : extended.Reachable := by
  have hreset : ((ofAutomaton .oneLetter []).reset (some ['a'])).Reachable :=
    .acted (.reset (some ['a'])) (.started [] inLineage_oneLetter) rfl
  have hread : (((ofAutomaton .oneLetter []).reset (some ['a'])).runComplete []).Reachable :=
    .acted (.runComplete []) hreset rfl
  exact hread.swapped inLineage_someLetters

/-- The edge back is followed at once, and both states are current. -/
theorem run_fits_automaton_extended :
    extended.Reachable ∧ extended.isRunning = true ∧ extended.current.toList = [1, 2]
      ∧ extended.shownReadCount = 1
      ∧ ∃ n, extended.followed.get? ⟨2, 1⟩ = some n ∧ (n : Int) = extended.shownReadCount := by
  have hrun : extended.isRunning = true := rfl
  obtain ⟨_, _, _, _, hempty⟩ := (run_fits_automaton reachable_extended).2 hrun
  have hcurrent : extended.current.toList = [1, 2] := by decide +kernel
  have hmem : (2 : StateId) ∈ extended.current := by
    rw [← OrderedSet.mem_toList, hcurrent]
    decide
  have hback : extended.automaton.table.Carries 2 1 .empty :=
    ⟨.onlyEmpty, by decide +kernel, SymbolSet.mem_onlyEmpty.2 rfl⟩
  exact ⟨reachable_extended, hrun, hcurrent, by decide +kernel, hempty 2 hmem 1 hback⟩

end Simulation

end FiniteAutomata
