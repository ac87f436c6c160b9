/-
  FiniteAutomata.IdSupply
  ───────────────────────
  The supply of state ids for one lineage of automata.

  All automata derived from one root draw their new states from one supply, so
  no id is handed out twice.
-/
import FiniteAutomata.Graph.Table

namespace FiniteAutomata

/-- The id that is handed out next, a positive number. -/
structure IdSupply where
  next : StateId
  positive : 1 ≤ next

namespace IdSupply

/-- The supply that starts with one. -/
def fresh : IdSupply := ⟨1, by decide⟩

instance : Inhabited IdSupply := ⟨fresh⟩

/-- The supply that starts with a given id, if that is positive. -/
def startingAt? (next : StateId) : Option IdSupply :=
  if h : 1 ≤ next then some ⟨next, h⟩ else none

/-- The wording of the refusal of a start that is not positive. -/
def notPositiveMessage : String := "next_id must be >= 1"

/-- The supply beyond every id of a set. -/
def beyond (ids : StateSet) : IdSupply :=
  (startingAt? (ids.max?.getD 0 + 1)).getD fresh

/-- Hand out an id. -/
def allocate (s : IdSupply) : StateId × IdSupply :=
  (s.next, ⟨s.next + 1, Int.le_trans s.positive (Int.le_add_one (Int.le_refl _))⟩)

/-- Hand out several ids. -/
def allocateMany (s : IdSupply) : Nat → List StateId × IdSupply
  | 0 => ([], s)
  | count + 1 =>
      let (id, s) := s.allocate
      let (ids, s) := s.allocateMany count
      (id :: ids, s)

/-- The supply as a message shows it. -/
def describe (s : IdSupply) : String := s!"StateIdAllocator(next_id={s.next})"

end IdSupply

end FiniteAutomata
