/-
  FiniteAutomata.Language
  ───────────────────────
  The words that an automaton accepts.
-/
import FiniteAutomata.Simulation.Basic

namespace FiniteAutomata

namespace Automaton

/-- Whether an automaton accepts a word. -/
def accepts (a : Automaton) (word : List Char) : Bool :=
  (((Simulation.ofAutomaton a []).reset (some word)).run []).verdict = .accept

/-- Whether an automaton accepts a word, given its generating states. -/
def acceptsFor (a : Automaton) (generating : StateSet) (word : List Char) : Bool :=
  (((Run.begin a).advanceLive a generating word).1).verdictFor a.accept generating = .accept

theorem acceptsFor_generatingStates (a : Automaton) (word : List Char) :
    a.acceptsFor a.generatingStates word = a.accepts word := by
  simp [acceptsFor, accepts, Simulation.ofAutomaton, Simulation.reset, Simulation.run,
    Simulation.runOrBegin, Simulation.verdict, Run.verdict]

end Automaton

/-- The words of one length over some letters, the first letter counting most. -/
def wordsOfLength (letters : List Char) : Nat → List (List Char)
  | 0 => [[]]
  | length + 1 => letters.flatMap fun c => (wordsOfLength letters length).map (c :: ·)

theorem mem_wordsOfLength {letters : List Char} {length : Nat} {word : List Char} :
    word ∈ wordsOfLength letters length ↔
      word.length = length ∧ ∀ c ∈ word, c ∈ letters := by
  induction length generalizing word with
  | zero =>
      rw [wordsOfLength, List.mem_singleton, List.length_eq_zero_iff]
      constructor
      · rintro rfl
        exact ⟨rfl, fun _ h => absurd h List.not_mem_nil⟩
      · exact fun h => h.1
  | succ length ih =>
      simp only [wordsOfLength, List.mem_flatMap, List.mem_map, ih]
      constructor
      · rintro ⟨c, hc, word, ⟨hlength, hletters⟩, rfl⟩
        refine ⟨congrArg (· + 1) hlength, fun d hd => ?_⟩
        rcases List.mem_cons.1 hd with rfl | hd
        · exact hc
        · exact hletters d hd
      · rintro ⟨hlength, hletters⟩
        cases word with
        | nil => cases hlength
        | cons c word =>
            exact ⟨c, hletters c List.mem_cons_self, word,
              ⟨Nat.succ.inj hlength, fun d hd => hletters d (List.mem_cons_of_mem c hd)⟩,
              rfl⟩

/-- The words over some letters up to a length, shorter ones first. -/
def wordsUpTo (letters : List Char) (length : Nat) : List (List Char) :=
  (List.range (length + 1)).flatMap (wordsOfLength letters)

theorem mem_wordsUpTo {letters : List Char} {length : Nat} {word : List Char} :
    word ∈ wordsUpTo letters length ↔
      word.length ≤ length ∧ ∀ c ∈ word, c ∈ letters := by
  simp only [wordsUpTo, List.mem_flatMap, List.mem_range, mem_wordsOfLength]
  constructor
  · rintro ⟨n, hn, rfl, hletters⟩
    exact ⟨Nat.le_of_lt_succ hn, hletters⟩
  · rintro ⟨hlength, hletters⟩
    exact ⟨word.length, Nat.lt_succ_of_le hlength, rfl, hletters⟩

/-- The words over some letters up to a length that an automaton accepts. -/
def Automaton.acceptedWords (a : Automaton) (letters : List Char) (length : Nat) :
    List (List Char) :=
  (wordsUpTo letters length).filter a.accepts

end FiniteAutomata
