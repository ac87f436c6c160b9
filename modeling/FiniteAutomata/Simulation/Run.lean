/-
  FiniteAutomata.Simulation.Run
  ─────────────────────────────
  **One run of an automaton.**

  A run keeps every state that the automaton may be in.  The states are closed
  under edges that consume no input, and each edge taken is stamped with the
  number of characters that had been read when it was taken last.
-/
import FiniteAutomata.Automaton.Basic

namespace FiniteAutomata

/-- What is known of a run so far. -/
inductive Verdict where
  /-- No accepting state can be reached any more. -/
  | reject
  /-- An accepting state can be reached, but the run is not in one. -/
  | inconclusive
  /-- The run may be in an accepting state. -/
  | accept
  deriving DecidableEq, Repr

/-- The number that stands for a verdict. -/
def Verdict.code : Verdict → Int
  | .reject => -1
  | .inconclusive => 0
  | .accept => 1

/-- The edges followed, with the number of characters read when each was followed
last. -/
abbrev History := OrderedMap Edge Nat

/-- The history after some edges were followed. -/
def History.stamp (h : History) (count : Nat) (edges : List Edge) : History :=
  edges.foldl (fun h e => h.insert e count) h

theorem History.get?_stamp (h : History) (count : Nat) (edges : List Edge) (e : Edge) :
    (h.stamp count edges).get? e = if e ∈ edges then some count else h.get? e := by
  induction edges generalizing h with
  | nil => simp [stamp]
  | cons d edges ih =>
      have step : h.stamp count (d :: edges) = stamp (h.insert d count) count edges := rfl
      rw [step, ih, OrderedMap.get?_insert]
      by_cases he : e ∈ edges
      · simp [he]
      · by_cases hd : e = d <;> simp [he, hd]

/-- Where a run stands. -/
structure Run where
  current : StateSet
  readCount : Nat
  followed : History
  deriving DecidableEq

namespace Run

/-! ## §1. Verdicts. -/

/-- Whether the run may be in one of some states. -/
def meets (r : Run) (states : StateSet) : Bool := !(r.current ∩ states).isEmpty

/-- The verdict, given the generating states. -/
def verdictFor (r : Run) (accept generating : StateSet) : Verdict :=
  if r.meets accept then .accept
  else if r.meets generating then .inconclusive
  else .reject

theorem meets_iff {r : Run} {states : StateSet} :
    r.meets states = true ↔ ∃ s ∈ r.current, s ∈ states := by
  rw [meets, Bool.not_eq_true', ← Bool.not_eq_true, OrderedSet.isEmpty_iff]
  constructor
  · intro h
    apply Classical.byContradiction
    intro none
    apply h
    apply OrderedSet.ext
    intro s
    rw [OrderedSet.mem_inter]
    refine iff_of_false (fun hs => none ⟨s, hs.1, hs.2⟩) (OrderedSet.not_mem_empty s)
  · rintro ⟨s, hc, hs⟩ h
    have hmem : s ∈ r.current ∩ states := OrderedSet.mem_inter.2 ⟨hc, hs⟩
    rw [h] at hmem
    exact OrderedSet.not_mem_empty s hmem

theorem verdictFor_eq_accept_iff {r : Run} {accept generating : StateSet} :
    r.verdictFor accept generating = .accept ↔ r.meets accept = true := by
  unfold verdictFor
  by_cases h : r.meets accept = true
  · simp [h]
  · by_cases hg : r.meets generating = true <;> simp [h, hg]

theorem verdictFor_eq_reject_iff {r : Run} {accept generating : StateSet} :
    r.verdictFor accept generating = .reject ↔
      r.meets accept = false ∧ r.meets generating = false := by
  unfold verdictFor
  by_cases h : r.meets accept = true
  · simp [h]
  · by_cases hg : r.meets generating = true <;> simp [h, hg]

/-- The verdict on a run of an automaton. -/
def verdict (r : Run) (a : Automaton) : Verdict :=
  r.verdictFor a.accept a.generatingStates

/-! ## §2. Steps. -/

/-- The run in given states, closed under edges that consume no input.  The edges
that lead there and those of the closure are stamped. -/
def settle (t : Table) (states : StateSet) (taken : List Edge) (count : Nat)
    (followed : History) : Run :=
  let closure := t.closure states
  ⟨closure.seen, count, followed.stamp count (taken ++ closure.followed)⟩

theorem mem_current_settle {t : Table} {states : StateSet} {taken : List Edge}
    {count : Nat} {followed : History} {x : StateId} :
    x ∈ (settle t states taken count followed).current ↔
      ∃ s ∈ states, Linked t.emptyEdges s x := by
  show x ∈ (t.closure states).seen ↔ _
  rw [Table.closure, mem_saturate]

theorem get?_followed_settle (t : Table) (states : StateSet) (taken : List Edge)
    (count : Nat) (followed : History) (e : Edge) :
    (settle t states taken count followed).followed.get? e =
      if e ∈ taken ∨ e ∈ (t.closure states).followed then some count
      else followed.get? e := by
  show (followed.stamp count (taken ++ (t.closure states).followed)).get? e = _
  rw [History.get?_stamp]
  simp only [List.mem_append]

/-- The run that has read nothing. -/
def begin (a : Automaton) : Run :=
  let states := match a.start with
    | some s => OrderedSet.singleton s
    | none => ∅
  settle a.table states [] 0 ∅

/-- The edges from given states that consume a character. -/
def moves (t : Table) (states : StateSet) (c : Char) : List Edge :=
  liveEdges states (t.edgesWhere fun symbols => symbols.has (.char c))

theorem mem_moves {t : Table} {states : StateSet} {c : Char} {e : Edge} :
    e ∈ moves t states c ↔
      e.origin ∈ states ∧
        ∃ symbols, t.label? e.origin e.target = some symbols ∧ .char c ∈ symbols := by
  rw [moves, mem_liveEdges, Table.mem_edgesWhere, and_comm]
  simp only [SymbolSet.has_iff]

/-- The run after a further character. -/
def advance (t : Table) (r : Run) (c : Char) : Run :=
  -- The edges taken carry the count after the character.
  let taken := moves t r.current c
  settle t (targetsOf taken) taken (r.readCount + 1) r.followed

/-- The run after a word. -/
def advanceAll (t : Table) (r : Run) (word : List Char) : Run := word.foldl (advance t) r

theorem advanceAll_append (t : Table) (r : Run) (u v : List Char) :
    advanceAll t r (u ++ v) = advanceAll t (advanceAll t r u) v :=
  List.foldl_append

/-- The run after a word, or after the part of it that leads to a rejection; and
the part that was not read.  The generating states are given. -/
def advanceLive (a : Automaton) (generating : StateSet) : Run → List Char → Run × List Char
  | r, [] => (r, [])
  | r, c :: word =>
      -- Nothing that follows can make a rejected run accept.
      if r.verdictFor a.accept generating = .reject then (r, c :: word)
      else advanceLive a generating (r.advance a.table c) word

/-- Whether at some point of a word the run is in no accepting state. -/
def strays (a : Automaton) : Run → List Char → Bool
  | r, [] => !r.meets a.accept
  | r, c :: word => !r.meets a.accept || strays a (r.advance a.table c) word

/-- The run continued on another automaton.  States and edges that it does not
have are dropped. -/
def moveTo (r : Run) (a : Automaton) : Run :=
  settle a.table (r.current ∩ a.states) [] r.readCount
    (r.followed.filter fun e _ => a.hasEdge (.id e.origin) (.id e.target) none)

end Run

end FiniteAutomata
