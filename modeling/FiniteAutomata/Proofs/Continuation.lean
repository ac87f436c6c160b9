/-
  FiniteAutomata.Proofs.Continuation
  ──────────────────────────────────
  **A RUN GOES ON FROM WHERE IT IS.**

  Input may come in pieces, and the automaton may be changed during the run.
  Neither is to be noticed if it makes no difference to what is read along which
  edges.

  A run that stops at a rejection leaves input unread, and further input is put
  behind it.  Asked to go on it stops at once, in the same place, so the whole
  input leads there too:

      Run.advanceLive_append     where the parts of a word lead
      fed_in_pieces              the same of a simulation, for any number of pieces

  A run that is moved to another automaton is settled anew.  It is closed already
  and has just followed its edges without input, so nothing comes of that if the
  edges are the same:

      Run.Fits.moveTo_eq_self    where the same edges lead
      SuppliedBy.edit_keepsEdges edits that leave the edges as they are
      undisturbed_by_same_edges  the same of a simulation
-/
import FiniteAutomata.Proofs.Simulations

namespace FiniteAutomata

/-! ## §1. Input in pieces. -/

/-- To read two words is to read the first, and what that leaves with the second
behind it. -/
theorem Run.advanceLive_append (a : Automaton) (generating : StateSet) (r : Run)
    (u v : List Char) :
    r.advanceLive a generating (u ++ v)
      = (r.advanceLive a generating u).1.advanceLive a generating
          ((r.advanceLive a generating u).2 ++ v) := by
  induction u generalizing r with
  | nil => rfl
  | cons c u ih =>
      rw [List.cons_append]
      by_cases h : r.verdictFor a.accept generating = .reject
      · -- Rejected before the first character, the run reads nothing of any word.
        have hstop : ∀ w, r.advanceLive a generating (c :: w) = (r, c :: w) := by
          intro w
          rw [advanceLive, if_pos h]
        rw [hstop u, hstop (u ++ v)]
        exact (hstop (u ++ v)).symm
      · have hread : ∀ w, r.advanceLive a generating (c :: w)
            = (r.advance a.table c).advanceLive a generating w := by
          intro w
          rw [advanceLive, if_neg h]
        rw [hread, hread]
        exact ih (r.advance a.table c)

namespace Simulation

theorem run_run (s : Simulation) (u v : List Char) : (s.run u).run v = s.run (u ++ v) := by
  have hrun : ∀ w, s.run w = { s with
      remaining := (s.runOrBegin.advanceLive s.automaton s.automaton.generatingStates
        (s.remaining ++ w)).2
      progress := some (s.runOrBegin.advanceLive s.automaton s.automaton.generatingStates
        (s.remaining ++ w)).1 } := fun _ => rfl
  rw [hrun (u ++ v), ← List.append_assoc, Run.advanceLive_append, hrun u]
  rfl

theorem runComplete_runComplete (s : Simulation) (u v : List Char) :
    (s.runComplete u).runComplete v = s.runComplete (u ++ v) := by
  have hrun : ∀ w, s.runComplete w = { s with
      remaining := []
      progress := some (s.runOrBegin.advanceAll s.automaton.table (s.remaining ++ w)) } :=
    fun _ => rfl
  rw [hrun (u ++ v), ← List.append_assoc, Run.advanceAll_append]
  rfl

/-- What takes two pieces as one takes any number of them as one. -/
theorem foldl_pieces {feed : Simulation → List Char → Simulation}
    (h : ∀ s u v, feed (feed s u) v = feed s (u ++ v)) (s : Simulation) (u : List Char)
    (pieces : List (List Char)) :
    pieces.foldl feed (feed s u) = feed s (u ++ pieces.flatten) := by
  induction pieces generalizing u with
  | nil => rw [List.flatten_nil, List.append_nil, List.foldl_nil]
  | cons v rest ih => rw [List.foldl_cons, h, ih, List.flatten_cons, List.append_assoc]

/-- **Input can be fed in pieces.**  Whether it runs or not, and whatever input is
unread, a simulation that is given one text and then another is the one that is
given both at once, also where it stops at a rejection within the first; and so it
is with any number of texts. -/
theorem fed_in_pieces (s : Simulation) :
    (∀ u v, (s.run u).run v = s.run (u ++ v))
      ∧ (∀ u v, (s.runComplete u).runComplete v = s.runComplete (u ++ v))
      ∧ ∀ (u : List Char) (pieces : List (List Char)),
          pieces.foldl run (s.run u) = s.run (u ++ pieces.flatten)
            ∧ pieces.foldl runComplete (s.runComplete u) = s.runComplete (u ++ pieces.flatten) :=
  ⟨s.run_run, s.runComplete_runComplete, fun u pieces =>
    ⟨foldl_pieces run_run s u pieces, foldl_pieces runComplete_runComplete s u pieces⟩⟩

end Simulation

/-! ## §2. Another automaton with the same edges. -/

theorem Automaton.WellFormed.hasEdge_of_mem_edges {a : Automaton} (h : a.WellFormed) {e : Edge}
    (he : e ∈ a.table.edges) : a.hasEdge (.id e.origin) (.id e.target) none = true := by
  obtain ⟨g, hl⟩ := Table.mem_edges.1 he
  unfold hasEdge
  rw [h.label?_id, hl]

namespace Run

variable {a b : Automaton} {r : Run}

/-- To settle in states that are closed already is to stay in them. -/
theorem Closed.current_settle {t : Table} (h : r.Closed t) {states : StateSet}
    (hstates : ∀ q, q ∈ states ↔ q ∈ r.current) (taken : List Edge) (count : Nat)
    (followed : History) : (settle t states taken count followed).current = r.current := by
  apply OrderedSet.ext
  intro q
  rw [mem_current_settle]
  constructor
  · rintro ⟨p, hp, hl⟩
    exact h p ((hstates p).1 hp) q (path_nil_iff.2 hl)
  · exact fun hq => ⟨q, (hstates q).2 hq, .refl q⟩

/-- The same edges give the same paths. -/
theorem Closed.congr {t t' : Table} (h : r.Closed t)
    (hedges : ∀ p q, t'.label? p q = t.label? p q) : r.Closed t' := by
  have hcarries : ∀ p q x, t'.Carries p q x → t.Carries p q x := by
    intro p q x
    unfold Table.Carries
    rw [hedges]
    exact id
  exact fun p hp q hpath => h p hp q (hpath.mono hcarries)

/-- **Where the same edges lead.**  The run is closed already, and settling stamps
what was stamped just now. -/
theorem Fits.moveTo_eq_self (h : r.Fits a) (hb : b.WellFormed)
    (hedges : ∀ p q, b.table.label? p q = a.table.label? p q)
    (hcurrent : ∀ q ∈ r.current, q ∈ b.states) : r.moveTo b = r := by
  have hstates : ∀ q, q ∈ r.current ∩ b.states ↔ q ∈ r.current := fun q =>
    OrderedSet.mem_inter.trans (and_iff_left_of_imp (hcurrent q))
  have hsettled : (r.moveTo b).current = r.current :=
    (h.closed.congr hedges).current_settle hstates _ _ _
  have hfollowed : (r.moveTo b).followed = r.followed := by
    apply OrderedMap.ext
    intro e
    unfold Run.moveTo
    rw [get?_followed_settle]
    by_cases he : e ∈ (b.table.closure (r.current ∩ b.states)).followed
    · rw [if_pos (Or.inr he)]
      obtain ⟨hempty, horigin⟩ := mem_followed.1 he
      rw [Table.mem_emptyEdges, hedges, ← Table.mem_emptyEdges] at hempty
      exact (h.empty_followed e hempty (hsettled ▸ horigin)).symm
    · rw [if_neg (by simp [he]), OrderedMap.get?_filter]
      -- What was followed is an edge still, so the history loses nothing.
      cases hold : r.followed.get? e with
      | none => rfl
      | some n =>
          have hmem := (h.followed_mem e n hold).1
          rw [Table.mem_edges, ← hedges, ← Table.mem_edges] at hmem
          exact Option.filter_eq_some_iff.2 ⟨rfl, hb.hasEdge_of_mem_edges hmem⟩
  calc r.moveTo b = ⟨(r.moveTo b).current, r.readCount, (r.moveTo b).followed⟩ := rfl
    _ = r := by rw [hsettled, hfollowed]

end Run

/-- Whether an edit leaves the edges of any automaton as they are. -/
def Edit.keepsEdges : Edit → Bool
  | .addState _ | .setStart _ | .setAccept _ _ | .toggleAccept _ | .setName _ _
  | .setAlphabet _ | .unsetAlphabet => true
  | _ => false

/-- Edits that leave the edges as they are lose no state either. -/
theorem Automaton.SuppliedBy.edit_keepsEdges {a b : Automaton} {supply : IdSupply} {e : Edit}
    {d : Edited} (h : a.SuppliedBy supply) (he : e.keepsEdges = true)
    (hd : a.edit supply e = .ok d) (hb : d.automaton = some b) :
    (∀ p q, b.table.label? p q = a.table.label? p q) ∧ ∀ s ∈ a.states, s ∈ b.states := by
  cases e with
  | addState name =>
      cases hd
      cases hb
      refine ⟨fun p q => ?_, fun s hs => mem_states_addState.2 (Or.inr hs)⟩
      rw [label?_addState]
      by_cases hp : p = supply.next
      · rw [if_pos hp, hp, h.wellFormed.label?_eq_none h.next_not_mem]
      · rw [if_neg hp]
  | setStart r =>
      cases hd
      obtain ⟨_, _, rfl⟩ := setStart?_eq_some hb
      exact ⟨fun _ _ => rfl, fun _ hs => hs⟩
  | setAccept r accept =>
      cases hd
      obtain ⟨_, _, rfl⟩ := setAccept?_eq_some hb
      exact ⟨fun _ _ => rfl, fun _ hs => hs⟩
  | toggleAccept r =>
      cases hd
      obtain ⟨_, _, rfl⟩ := setAccept?_eq_some hb
      exact ⟨fun _ _ => rfl, fun _ hs => hs⟩
  | setName r name =>
      cases hd
      obtain ⟨_, _, rfl⟩ := setName?_eq_some hb
      exact ⟨fun _ _ => rfl, fun _ hs => hs⟩
  | setAlphabet label =>
      obtain ⟨result, hr, hd⟩ := bind_eq_ok.1 hd
      cases hd
      subst hb
      obtain ⟨_, _, rfl⟩ := setAlphabet?_eq_some (mapError_eq_ok.1 hr)
      exact ⟨fun _ _ => rfl, fun _ hs => hs⟩
  | unsetAlphabet =>
      cases hd
      have hb := unsetAlphabet?_eq_some hb
      subst hb
      exact ⟨fun _ _ => rfl, fun _ hs => hs⟩
  | _ => cases he

namespace Simulation

/-- `s.AgreesWith s'`: the simulations stand at the same point of their runs. -/
structure AgreesWith (s s' : Simulation) : Prop where
  current_eq : s.current = s'.current
  remaining_eq : s.remaining = s'.remaining
  readCount_eq : s.readCount? = s'.readCount?
  followed_eq : s.followed = s'.followed

variable {s : Simulation}

theorem current_of_progress {r : Run} (hr : s.progress = some r) : s.current = r.current := by
  unfold current
  rw [hr]

/-- The current states are states, also without a run. -/
theorem Consistent.current_mem (h : s.Consistent) : ∀ q ∈ s.current, q ∈ s.automaton.states := by
  intro q hq
  cases hr : s.progress with
  | none =>
      unfold current at hq
      rw [hr] at hq
      exact absurd hq (OrderedSet.not_mem_empty q)
  | some r => exact (h.fits r hr).current_mem q (current_of_progress hr ▸ hq)

theorem Consistent.withAutomaton_agrees (h : s.Consistent) {b : Automaton} (hb : b.WellFormed)
    (hedges : ∀ p q, b.table.label? p q = s.automaton.table.label? p q)
    (hcurrent : ∀ q ∈ s.current, q ∈ b.states) : (s.withAutomaton b).AgreesWith s := by
  -- Only the automaton changes, without a run as well.
  have hsame : s.withAutomaton b = { s with automaton := b } := by
    unfold Simulation.withAutomaton
    cases hr : s.progress with
    | none => rfl
    | some r =>
        rw [current_of_progress hr] at hcurrent
        rw [Option.map_some, (h.fits r hr).moveTo_eq_self hb hedges hcurrent]
  rw [hsame]
  exact ⟨rfl, rfl, rfl, rfl⟩

/-- **The same edges do not disturb a run.**  A reachable simulation that is changed to
an automaton with the same edges, and with all states that are current, stands at the
same point as before: current states, unread input, count and history are the same.
So it is after every edit that leaves the edges as they are. -/
theorem undisturbed_by_same_edges (h : s.Reachable) :
    (∀ (b : Automaton) (supply : IdSupply), InLineage b supply →
        (∀ p q, b.table.label? p q = s.automaton.table.label? p q) →
        (∀ q ∈ s.current, q ∈ b.states) → (s.withAutomaton b).AgreesWith s)
      ∧ ∀ (e : Edit) (supply : IdSupply) (d : Edited) (b : Automaton),
          InLineage s.automaton supply → e.keepsEdges = true →
          s.automaton.edit supply e = .ok d → d.automaton = some b →
          (s.withAutomaton b).AgreesWith s := by
  have hs := h.consistent
  constructor
  · intro b supply hb hedges hcurrent
    exact hs.withAutomaton_agrees hb.suppliedBy.wellFormed hedges hcurrent
  · intro e supply d b ha he hd hb
    obtain ⟨hedges, hstates⟩ := ha.suppliedBy.edit_keepsEdges he hd hb
    have hwf : b.WellFormed := (ha.edited hd hb).suppliedBy.wellFormed
    exact hs.withAutomaton_agrees hwf hedges fun q hq => hstates q (hs.current_mem q hq)

/-- The start is taken away from the run that was extended, or a state is added. -/
theorem undisturbed_by_same_edges_extended :
    extended.Reachable ∧ extended.isRunning = true
      ∧ (extended.withAutomaton { Automaton.someLetters with start := none }).AgreesWith extended
      ∧ (extended.withAutomaton (Automaton.someLetters.addState 3 .null)).AgreesWith
          extended := by
  obtain ⟨hall, hedits⟩ := undisturbed_by_same_edges reachable_extended
  have hstopped : InLineage { Automaton.someLetters with start := none } .afterOneLetter :=
    inLineage_someLetters.edited (e := .setStart (.id 0)) rfl rfl
  exact ⟨reachable_extended, rfl,
    hall _ _ hstopped (fun _ _ => rfl) reachable_extended.consistent.current_mem,
    hedits (.addState .null) .afterOneLetter _ _ inLineage_someLetters rfl rfl rfl⟩

end Simulation

end FiniteAutomata
