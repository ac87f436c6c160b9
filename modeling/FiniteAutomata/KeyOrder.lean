/-
  FiniteAutomata.KeyOrder
  ───────────────────────
  The strict total orders by which sets and maps keep their contents.

  Sets of states, sets of symbols and tables of edges are all kept in
  ascending order, so that equal contents are equal values.  `KeyOrder` is what
  a type must offer for that: a decidable order that is irreflexive, transitive
  and compares any two values.
-/
namespace FiniteAutomata

/-- A decidable strict total order on a type of keys. -/
class KeyOrder (α : Type) extends LT α where
  /-- Whether one key stands before another can be computed. -/
  decideLt : (a b : α) → Decidable (a < b)
  irrefl : ∀ a : α, ¬ a < a
  trans : ∀ {a b c : α}, a < b → b < c → a < c
  trichotomy : ∀ a b : α, a < b ∨ a = b ∨ b < a

namespace KeyOrder

variable {α : Type} [KeyOrder α]

instance (a b : α) : Decidable (a < b) := KeyOrder.decideLt a b

theorem ne_of_lt {a b : α} (h : a < b) : a ≠ b := fun e => irrefl a (e ▸ h)

theorem asymm {a b : α} (h : a < b) : ¬ b < a := fun h' => irrefl a (trans h h')

theorem eq_of_not_lt {a b : α} (h : ¬ a < b) (h' : ¬ b < a) : a = b := by
  rcases trichotomy a b with hlt | heq | hgt
  · exact absurd hlt h
  · exact heq
  · exact absurd hgt h'

instance : KeyOrder Int where
  decideLt := Int.decLt
  irrefl := Int.lt_irrefl
  trans := Int.lt_trans
  trichotomy := Int.lt_trichotomy

end KeyOrder

end FiniteAutomata
