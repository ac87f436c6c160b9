/-
  FiniteAutomata.SymbolSet.Basic
  ──────────────────────────────
  **Sets of input symbols, the labels of edges.**

  A symbol set is an ordered set of allowed symbols, so it has one
  representation.  Main statements: union and difference act on members
  (`mem_union`, `mem_sdiff`), `merge?` and `subtract?` answer `none` exactly if
  nothing changes, and sets with the same members are equal (`ext`).
-/
import FiniteAutomata.Symbol

namespace FiniteAutomata

/-- A finite set of allowed symbols. -/
structure SymbolSet where
  symbols : OrderedSet Symbol
  allowed : ∀ x ∈ symbols, x.isAllowed = true

namespace SymbolSet

/-! ## §1. Members. -/

instance : Membership Symbol SymbolSet := ⟨fun s x => x ∈ s.symbols⟩

instance (x : Symbol) (s : SymbolSet) : Decidable (x ∈ s) :=
  inferInstanceAs (Decidable (x ∈ s.symbols))

theorem eq_of_symbols_eq {s t : SymbolSet} (h : s.symbols = t.symbols) : s = t := by
  cases s
  cases t
  cases h
  rfl

instance : DecidableEq SymbolSet := fun s t =>
  if h : s.symbols = t.symbols then isTrue (eq_of_symbols_eq h)
  else isFalse fun e => h (e ▸ rfl)

/-- Sets with the same members are equal. -/
@[ext] theorem ext {s t : SymbolSet} (h : ∀ x, x ∈ s ↔ x ∈ t) : s = t :=
  eq_of_symbols_eq (OrderedSet.ext h)

/-- The set that matches nothing. -/
def nothing : SymbolSet := ⟨∅, fun _ h => absurd h (OrderedSet.not_mem_empty _)⟩

instance : EmptyCollection SymbolSet := ⟨nothing⟩

instance : Inhabited SymbolSet := ⟨∅⟩

/-- The set of the empty symbol. -/
def onlyEmpty : SymbolSet :=
  ⟨OrderedSet.singleton .empty, fun _ h => OrderedSet.mem_singleton.1 h ▸ rfl⟩

/-- Whether a symbol is a member. -/
def has (s : SymbolSet) (x : Symbol) : Bool := x ∈ s

/-- Whether the empty symbol is a member. -/
def hasEmpty (s : SymbolSet) : Bool := s.has .empty

/-- Whether a text is a member; one of several characters never is. -/
def hasText (s : SymbolSet) (text : String) : Bool :=
  match Symbol.ofText? text with
  | some x => s.has x
  | none => false

/-- The number of members. -/
def size (s : SymbolSet) : Nat := s.symbols.size

/-- Whether the set matches nothing. -/
def isEmpty (s : SymbolSet) : Bool := s.symbols.isEmpty

/-- Whether every member of `t` is a member of `s`. -/
def contains (s t : SymbolSet) : Bool := t.symbols.isSubset s.symbols

/-- The members other than the empty symbol. -/
def chars (s : SymbolSet) : List Char :=
  s.symbols.toList.filterMap fun
    | .empty => none
    | .char c => some c

/-! ## §2. Set operations. -/

/-- The members of either set. -/
def union (s t : SymbolSet) : SymbolSet :=
  ⟨s.symbols ∪ t.symbols, fun x h =>
    (OrderedSet.mem_union.1 h).elim (s.allowed x) (t.allowed x)⟩

instance : Union SymbolSet := ⟨union⟩

/-- The members of the first set that are not in the second. -/
def sdiff (s t : SymbolSet) : SymbolSet :=
  ⟨s.symbols \ t.symbols, fun x h => s.allowed x (OrderedSet.mem_sdiff.1 h).1⟩

instance : SDiff SymbolSet := ⟨sdiff⟩

/-- The members of a set and of all others. -/
def merge (s : SymbolSet) (others : List SymbolSet) : SymbolSet :=
  others.foldl union s

/-- The members of a set that are in none of the others. -/
def subtract (s : SymbolSet) (others : List SymbolSet) : SymbolSet :=
  others.foldl sdiff s

/-- The members of any of the sets. -/
def unionAll (groups : List SymbolSet) : SymbolSet := merge ∅ groups

/-- The union with other sets; `none` if it has no further member. -/
def merge? (s : SymbolSet) (others : List SymbolSet) : Option SymbolSet :=
  let t := s.merge others
  if t.size = s.size then none else some t

/-- The difference to other sets; `none` if every member remains. -/
def subtract? (s : SymbolSet) (others : List SymbolSet) : Option SymbolSet :=
  let t := s.subtract others
  if t.size = s.size then none else some t

/-- The set without the empty symbol. -/
def withoutEmpty (s : SymbolSet) : SymbolSet := s \ onlyEmpty

/-- The set without the empty symbol; `none` if it has no empty symbol. -/
def withoutEmpty? (s : SymbolSet) : Option SymbolSet :=
  if s.hasEmpty then some s.withoutEmpty else none

/-- The number of members of several sets, each set counted for itself. -/
def totalSize : List SymbolSet → Nat
  | [] => 0
  | s :: rest => s.size + totalSize rest

/-- Whether two of the sets have a member in common: then their union has fewer
members than they have together. -/
def shareAny (groups : List SymbolSet) : Bool := (unionAll groups).size < totalSize groups

/-! ## §3. The members of each result. -/

@[simp] theorem not_mem_nothing (x : Symbol) : x ∉ (∅ : SymbolSet) :=
  OrderedSet.not_mem_empty x

theorem ne_nothing_of_mem {x : Symbol} {s : SymbolSet} (hx : x ∈ s) : s ≠ ∅ :=
  fun e => not_mem_nothing x (e ▸ hx)

theorem exists_mem {s : SymbolSet} (hs : s ≠ ∅) : ∃ x, x ∈ s := by
  apply Classical.byContradiction
  intro hnone
  rw [not_exists] at hnone
  exact hs (ext fun x => iff_of_false (hnone x) (not_mem_nothing x))

@[simp] theorem mem_onlyEmpty {x : Symbol} : x ∈ onlyEmpty ↔ x = .empty :=
  OrderedSet.mem_singleton

@[simp] theorem mem_union {x : Symbol} {s t : SymbolSet} :
    x ∈ s ∪ t ↔ x ∈ s ∨ x ∈ t := OrderedSet.mem_union

@[simp] theorem mem_sdiff {x : Symbol} {s t : SymbolSet} :
    x ∈ s \ t ↔ x ∈ s ∧ x ∉ t := OrderedSet.mem_sdiff

theorem mem_merge {x : Symbol} {s : SymbolSet} {others : List SymbolSet} :
    x ∈ s.merge others ↔ x ∈ s ∨ ∃ t ∈ others, x ∈ t := by
  induction others generalizing s with
  | nil => simp [merge]
  | cons t ts ih =>
      show x ∈ (s ∪ t).merge ts ↔ _
      rw [ih, mem_union, or_assoc]
      simp

theorem mem_subtract {x : Symbol} {s : SymbolSet} {others : List SymbolSet} :
    x ∈ s.subtract others ↔ x ∈ s ∧ ∀ t ∈ others, x ∉ t := by
  induction others generalizing s with
  | nil => simp [subtract]
  | cons t ts ih =>
      show x ∈ (s \ t).subtract ts ↔ _
      rw [ih, mem_sdiff, and_assoc]
      simp

@[simp] theorem mem_unionAll {x : Symbol} {groups : List SymbolSet} :
    x ∈ unionAll groups ↔ ∃ t ∈ groups, x ∈ t := by
  rw [unionAll, mem_merge]
  simp

@[simp] theorem mem_withoutEmpty {x : Symbol} {s : SymbolSet} :
    x ∈ s.withoutEmpty ↔ x ∈ s ∧ x ≠ .empty := by
  rw [withoutEmpty, mem_sdiff, mem_onlyEmpty]

@[simp] theorem has_iff {s : SymbolSet} {x : Symbol} : s.has x = true ↔ x ∈ s := by
  simp [has]

theorem contains_iff {s t : SymbolSet} : s.contains t = true ↔ ∀ x ∈ t, x ∈ s :=
  OrderedSet.isSubset_iff

theorem isEmpty_iff {s : SymbolSet} : s.isEmpty = true ↔ s = ∅ := by
  rw [isEmpty, OrderedSet.isEmpty_iff]
  exact ⟨@eq_of_symbols_eq s ∅, fun h => h ▸ rfl⟩

/-! ## §4. Checked construction. -/

/-- The least member that is not allowed. -/
def disallowed? (symbols : OrderedSet Symbol) : Option Char :=
  symbols.toList.findSome? fun
    | .empty => none
    | .char c => if Symbol.isAllowedChar c then none else some c

theorem allowed_of_disallowed?_eq_none {symbols : OrderedSet Symbol}
    (h : disallowed? symbols = none) : ∀ x ∈ symbols, x.isAllowed = true := by
  intro x hx
  have hc := List.findSome?_eq_none_iff.1 h x hx
  cases x with
  | empty => rfl
  | char c => simpa [Symbol.isAllowed] using hc

/-- The set of some symbols, if all of them are allowed. -/
def ofSymbols (symbols : OrderedSet Symbol) : Except SymbolError SymbolSet :=
  match h : disallowed? symbols with
  | some c => .error (.notAllowed c)
  | none => .ok ⟨symbols, allowed_of_disallowed?_eq_none h⟩

/-- The symbols of a list of texts, one symbol each. -/
def symbolsOfTexts : List String → Except SymbolError (List Symbol)
  | [] => .ok []
  | t :: ts =>
      match Symbol.ofText? t with
      | some x => (symbolsOfTexts ts).map (x :: ·)
      | none => .error (.notOneCharacter t)

/-- The set of the symbols that a list of texts gives, one symbol each. -/
def ofTexts (texts : List String) : Except SymbolError SymbolSet := do
  let symbols ← symbolsOfTexts texts
  ofSymbols (OrderedSet.ofList symbols)

end SymbolSet

end FiniteAutomata
