/-
  FiniteAutomata.Proofs.Traversals
  ────────────────────────────────
  **THE HISTORY IS THE LAST TRAVERSAL OF EACH EDGE.**

  A run stamps edges in two places: those that read a character before it settles,
  and those without input while it settles.  Seen from outside, an edge is traversed
  at the `j`-th step if it has the empty symbol and its origin is current after the
  step, or if it has the character that the step reads and its origin was current
  before (`Simulation.Traverses`).  A later stamp replaces an earlier one, so what is
  kept is the greatest of these numbers:

      followed_begin_iff      the edges stamped at the beginning
      followed_advance_iff    the edges stamped by one more character
      followed_take_iff       all of them, by induction on the number of steps

  Main statement: `followed_iff_last_traversal`.
-/
import FiniteAutomata.Proofs.Simulations
import Mathlib.Data.Nat.SuccPred

namespace FiniteAutomata

/-! ## §1. What one step stamps. -/

/-- The greatest number with a property up to a bound is the bound itself, or else
the greatest one below it. -/
theorem isGreatest_le_succ_iff {P : Nat → Prop} {k n : Nat} :
    IsGreatest {j | j ≤ k + 1 ∧ P j} n ↔
      P (k + 1) ∧ n = k + 1 ∨ ¬ P (k + 1) ∧ IsGreatest {j | j ≤ k ∧ P j} n := by
  by_cases h : P (k + 1)
  · have hgreatest : IsGreatest {j | j ≤ k + 1 ∧ P j} (k + 1) :=
      ⟨⟨Nat.le_refl _, h⟩, fun j hj => hj.1⟩
    simp only [h, true_and, not_true_eq_false, false_and, or_false]
    exact ⟨fun hn => hn.unique hgreatest, fun hn => hn ▸ hgreatest⟩
  · have hset : {j | j ≤ k + 1 ∧ P j} = {j | j ≤ k ∧ P j} := by
      ext j
      refine and_congr_left fun hj => ?_
      have hne : j ≠ k + 1 := fun e => h (e ▸ hj)
      omega
    simp only [h, false_and, not_false_eq_true, true_and, false_or, hset]

theorem isGreatest_le_zero_iff {P : Nat → Prop} {n : Nat} :
    IsGreatest {j | j ≤ 0 ∧ P j} n ↔ P 0 ∧ n = 0 := by
  constructor
  · rintro ⟨⟨hn, hP⟩, _⟩
    obtain rfl : n = 0 := Nat.le_zero.1 hn
    exact ⟨hP, rfl⟩
  · rintro ⟨hP, rfl⟩
    exact ⟨⟨Nat.le_refl 0, hP⟩, fun j hj => hj.1⟩

namespace Run

variable {e : Edge} {n : Nat}

/-- Settling stamps the edges that led there, and those without input that leave the
states that the run ends up in. -/
theorem followed_settle_iff (t : Table) (states : StateSet) (taken : List Edge)
    (count : Nat) (followed : History) :
    (settle t states taken count followed).followed.get? e = some n ↔
      (e ∈ taken ∨ e.origin ∈ (settle t states taken count followed).current
          ∧ t.Carries e.origin e.target .empty) ∧ n = count
        ∨ ¬ (e ∈ taken ∨ e.origin ∈ (settle t states taken count followed).current
          ∧ t.Carries e.origin e.target .empty) ∧ followed.get? e = some n := by
  have hclosure : e ∈ (t.closure states).followed ↔
      e.origin ∈ (settle t states taken count followed).current
        ∧ t.Carries e.origin e.target .empty := by
    unfold Table.closure
    rw [mem_followed, Table.mem_emptyEdges, and_comm]
    rfl
  rw [get?_followed_settle, ← hclosure]
  by_cases hnew : e ∈ taken ∨ e ∈ (t.closure states).followed
  · simp [hnew, eq_comm]
  · simp [hnew]

theorem followed_begin_iff (a : Automaton) :
    (begin a).followed.get? e = some n ↔
      (e.origin ∈ (begin a).current ∧ a.table.Carries e.origin e.target .empty) ∧ n = 0 := by
  unfold begin
  rw [followed_settle_iff]
  simp

/-- The edges that read the character leave the old states, and those without input
the new ones. -/
theorem followed_advance_iff (t : Table) (r : Run) (c : Char) :
    (r.advance t c).followed.get? e = some n ↔
      (e.origin ∈ r.current ∧ t.Carries e.origin e.target (.char c)
          ∨ e.origin ∈ (r.advance t c).current ∧ t.Carries e.origin e.target .empty)
        ∧ n = r.readCount + 1
      ∨ ¬ (e.origin ∈ r.current ∧ t.Carries e.origin e.target (.char c)
          ∨ e.origin ∈ (r.advance t c).current ∧ t.Carries e.origin e.target .empty)
        ∧ r.followed.get? e = some n := by
  have hmoves : e ∈ moves t r.current c ↔
      e.origin ∈ r.current ∧ t.Carries e.origin e.target (.char c) := mem_moves
  unfold advance
  rw [followed_settle_iff, hmoves]

theorem readCount_advanceAll (t : Table) (r : Run) (w : List Char) :
    (r.advanceAll t w).readCount = r.readCount + w.length := by
  induction w generalizing r with
  | nil => rfl
  | cons c w ih =>
      have hone : (r.advance t c).readCount = r.readCount + 1 := rfl
      show ((r.advance t c).advanceAll t w).readCount = _
      rw [ih, hone, List.length_cons]
      omega

/-- After one more character of a word. -/
theorem advanceAll_take_succ (t : Table) (r : Run) {w : List Char} {i : Nat}
    (hi : i < w.length) :
    r.advanceAll t (w.take (i + 1)) = (r.advanceAll t (w.take i)).advance t w[i] := by
  rw [← List.take_append_getElem hi, advanceAll_append]
  rfl

end Run

/-! ## §2. What a number of steps traverses. -/

namespace Simulation

/-- `s.Traverses e j`: the `j`-th step from `s` traverses the edge.  It has the empty
symbol and its origin is current after the step, or it has the character that the
step reads and its origin is current before. -/
def Traverses (s : Simulation) (e : Edge) (j : Nat) : Prop :=
  (∃ m, s.steps j = .ok m ∧ e.origin ∈ m.current
      ∧ s.automaton.table.Carries e.origin e.target .empty)
    ∨ ∃ i m c, j = i + 1 ∧ s.steps i = .ok m ∧ e.origin ∈ m.current
        ∧ s.remaining[i]? = some c ∧ s.automaton.table.Carries e.origin e.target (.char c)

variable {s : Simulation} {r : Run} {e : Edge}

/-- The states after a number of steps are those of the run that has read so much. -/
theorem exists_steps_iff (hr : s.progress = some r) {i : Nat} (hi : i ≤ s.remaining.length)
    {q : StateId} :
    (∃ m, s.steps i = .ok m ∧ q ∈ m.current) ↔
      q ∈ (r.advanceAll s.automaton.table (s.remaining.take i)).current := by
  rw [steps_eq hr hi]
  constructor
  · rintro ⟨m, hm, hq⟩
    cases hm
    exact hq
  · exact fun hq => ⟨_, rfl, hq⟩

theorem traverses_zero (hr : s.progress = some r) :
    s.Traverses e 0 ↔
      e.origin ∈ r.current ∧ s.automaton.table.Carries e.origin e.target .empty := by
  have hcurrent := exists_steps_iff hr (Nat.zero_le s.remaining.length) (q := e.origin)
  unfold Traverses
  simp only [← and_assoc, exists_and_right, hcurrent]
  simp [Run.advanceAll]

theorem traverses_succ (hr : s.progress = some r) {i : Nat} {c : Char}
    (hc : s.remaining[i]? = some c) :
    s.Traverses e (i + 1) ↔
      e.origin ∈ (r.advanceAll s.automaton.table (s.remaining.take i)).current
          ∧ s.automaton.table.Carries e.origin e.target (.char c)
        ∨ e.origin ∈ (r.advanceAll s.automaton.table (s.remaining.take (i + 1))).current
          ∧ s.automaton.table.Carries e.origin e.target .empty := by
  have hi : i < s.remaining.length := (List.getElem?_eq_some_iff.1 hc).1
  rw [← exists_steps_iff hr (Nat.le_of_lt hi), ← exists_steps_iff hr hi]
  unfold Traverses
  constructor
  · rintro (⟨m, hm, hq, hcarries⟩ | ⟨i', m, c', hi', hm, hq, hc', hcarries⟩)
    · exact Or.inr ⟨⟨m, hm, hq⟩, hcarries⟩
    · cases hi'
      cases hc.symm.trans hc'
      exact Or.inl ⟨⟨m, hm, hq⟩, hcarries⟩
  · rintro (⟨⟨m, hm, hq⟩, hcarries⟩ | ⟨⟨m, hm, hq⟩, hcarries⟩)
    · exact Or.inr ⟨i, m, c, rfl, hm, hq, hc, hcarries⟩
    · exact Or.inl ⟨m, hm, hq, hcarries⟩

/-- By induction on the number of steps: the last of them stamps what it traverses,
and leaves the other stamps as they are. -/
theorem followed_take_iff (hr : s.progress = some (Run.begin s.automaton)) {k : Nat}
    (hk : k ≤ s.remaining.length) {n : Nat} :
    ((Run.begin s.automaton).advanceAll s.automaton.table
        (s.remaining.take k)).followed.get? e = some n ↔
      IsGreatest {j | j ≤ k ∧ s.Traverses e j} n := by
  induction k generalizing n with
  | zero =>
      rw [isGreatest_le_zero_iff, traverses_zero hr]
      exact Run.followed_begin_iff s.automaton
  | succ k ih =>
      have hc : s.remaining[k]? = some s.remaining[k] := List.getElem?_eq_getElem hk
      have hcount : ((Run.begin s.automaton).advanceAll s.automaton.table
          (s.remaining.take k)).readCount = k := by
        rw [Run.readCount_advanceAll, List.length_take_of_le (Nat.le_of_succ_le hk)]
        exact Nat.zero_add k
      rw [isGreatest_le_succ_iff, traverses_succ hr hc, ← ih (Nat.le_of_succ_le hk),
        Run.advanceAll_take_succ _ _ hk, Run.followed_advance_iff, hcount]

/-- **The history is the last traversal of each edge.**  After `k` characters of a
word the edges followed are those that one of the first `k` steps traversed, the
closure at the beginning being the step zero; each is kept with the number of the
last step that did; and so many characters are read, the others are not. -/
theorem followed_iff_last_traversal (a : Automaton) (w : List Char) {k : Nat}
    (hk : k ≤ w.length) :
    let s := (ofAutomaton a []).reset (some w)
    ∃ m, s.steps k = .ok m
      ∧ (∀ e, (∃ n, m.followed.get? e = some n) ↔ ∃ j ≤ k, s.Traverses e j)
      ∧ (∀ e n, m.followed.get? e = some n ↔ IsGreatest {j | j ≤ k ∧ s.Traverses e j} n)
      ∧ m.readCount? = some k ∧ m.remaining = w.drop k := by
  intro s
  have hr : s.progress = some (Run.begin s.automaton) := rfl
  refine ⟨_, steps_eq hr hk, ?_, fun e n => followed_take_iff hr hk, ?_, rfl⟩
  · intro e
    have hgreatest := fun n => followed_take_iff (e := e) (n := n) hr hk
    constructor
    · rintro ⟨n, hn⟩
      exact ⟨n, ((hgreatest n).1 hn).1⟩
    · rintro ⟨j, hj⟩
      have hbounded : BddAbove {j | j ≤ k ∧ s.Traverses e j} := ⟨k, fun _ h => h.1⟩
      obtain ⟨n, hn⟩ := hbounded.exists_isGreatest_of_nonempty ⟨j, hj⟩
      exact ⟨n, (hgreatest n).2 hn⟩
  · show some (((Run.begin a).advanceAll a.table (w.take k)).readCount) = some k
    rw [Run.readCount_advanceAll, List.length_take_of_le hk]
    exact congrArg some (Nat.zero_add k)

/-- The second letter leads nowhere, so both edges keep the number of the first. -/
theorem followed_iff_last_traversal_someLetters :
    2 ≤ ['a', 'b'].length
      ∧ ∃ m, ((ofAutomaton .someLetters []).reset (some ['a', 'b'])).steps 2 = .ok m
        ∧ m.followed.get? ⟨2, 1⟩ = some 1
        ∧ IsGreatest {j | j ≤ 2
            ∧ ((ofAutomaton .someLetters []).reset (some ['a', 'b'])).Traverses ⟨2, 1⟩ j} 1
        ∧ m.readCount? = some 2 := by
  have hk : 2 ≤ ['a', 'b'].length := by decide
  obtain ⟨m, hm, _, hgreatest, hcount, _⟩ :=
    followed_iff_last_traversal .someLetters ['a', 'b'] hk
  have hback : ((((ofAutomaton .someLetters []).reset (some ['a', 'b'])).steps 2).toOption.map
      (·.followed.get? ⟨2, 1⟩)) = some (some 1) := by decide +kernel
  rw [hm] at hback
  have hback : m.followed.get? ⟨2, 1⟩ = some 1 := Option.some.inj hback
  exact ⟨hk, m, hm, hback, (hgreatest _ _).1 hback, hcount⟩

end Simulation

end FiniteAutomata
