/-
  FiniteAutomata.OrderedSet
  ─────────────────────────
  **Finite sets kept in ascending order.**

  A set is its list of members, strictly ascending, and the order is part of
  the type.  Hence equal sets are equal values (`OrderedSet.ext`), size is the
  length of the list, and each operation is pinned down by the members of its
  result:

      mem_insert, mem_ofList, mem_union, mem_filter, mem_sdiff, mem_inter
-/
import FiniteAutomata.KeyOrder

namespace FiniteAutomata

/-- A finite set, as the ascending list of its members. -/
structure OrderedSet (α : Type) [KeyOrder α] where
  toList : List α
  ascending : toList.Pairwise (· < ·)

namespace OrderedSet

variable {α : Type} [KeyOrder α]

/-! ## §1. Operations. -/

/-- The place of `x` in an ascending list; a member already there stays. -/
def place (x : α) : List α → List α
  | [] => [x]
  | y :: ys =>
      if x < y then x :: y :: ys
      else if y < x then y :: place x ys
      else y :: ys

theorem mem_place {x z : α} {l : List α} : z ∈ place x l ↔ z = x ∨ z ∈ l := by
  induction l with
  | nil => simp [place]
  | cons y ys ih =>
      simp only [place]
      split
      · simp
      · split
        · simp only [List.mem_cons, ih]
          constructor
          · rintro (h | h | h) <;> simp [h]
          · rintro (h | h | h) <;> simp [h]
        · next h h' =>
          have : x = y := KeyOrder.eq_of_not_lt h h'
          subst this
          simp

/-- The place of what is new in a list. -/
theorem perm_place {x : α} {l : List α} (h : x ∉ l) : (place x l).Perm (x :: l) := by
  induction l with
  | nil => exact .refl _
  | cons y ys ih =>
      obtain ⟨hne, hys⟩ := not_or.1 (mt List.mem_cons.2 h)
      simp only [place]
      split
      · exact .refl _
      · split
        · exact ((ih hys).cons y).trans (.swap x y ys)
        · next hx hy => exact absurd (KeyOrder.eq_of_not_lt hx hy) hne

theorem pairwise_place {x : α} {l : List α} (h : l.Pairwise (· < ·)) :
    (place x l).Pairwise (· < ·) := by
  induction l with
  | nil => simp [place]
  | cons y ys ih =>
      rw [List.pairwise_cons] at h
      simp only [place]
      split
      · next hx =>
        refine List.pairwise_cons.2 ⟨?_, List.pairwise_cons.2 h⟩
        intro z hz
        rcases List.mem_cons.1 hz with rfl | hz
        · exact hx
        · exact KeyOrder.trans hx (h.1 z hz)
      · split
        · next hy =>
          refine List.pairwise_cons.2 ⟨?_, ih h.2⟩
          intro z hz
          rcases mem_place.1 hz with rfl | hz
          · exact hy
          · exact h.1 z hz
        · exact List.pairwise_cons.2 h

/-- The set without members. -/
def empty : OrderedSet α := ⟨[], List.Pairwise.nil⟩

instance : EmptyCollection (OrderedSet α) := ⟨empty⟩

instance : Inhabited (OrderedSet α) := ⟨∅⟩

instance : Membership α (OrderedSet α) := ⟨fun s x => x ∈ s.toList⟩

instance [DecidableEq α] (x : α) (s : OrderedSet α) : Decidable (x ∈ s) :=
  inferInstanceAs (Decidable (x ∈ s.toList))

/-- The set with `x` added. -/
def insert (x : α) (s : OrderedSet α) : OrderedSet α :=
  ⟨place x s.toList, pairwise_place s.ascending⟩

/-- The set with one member. -/
def singleton (x : α) : OrderedSet α := ⟨[x], by simp⟩

/-- The members of a list, in any order and with any repetition. -/
def ofList (l : List α) : OrderedSet α := l.foldr insert ∅

/-- The members of either set. -/
def union (s t : OrderedSet α) : OrderedSet α := t.toList.foldr insert s

instance : Union (OrderedSet α) := ⟨union⟩

/-- The members that satisfy a test. -/
def filter (p : α → Bool) (s : OrderedSet α) : OrderedSet α :=
  ⟨s.toList.filter p, s.ascending.filter p⟩

/-- The members of the first set that are not in the second. -/
def sdiff [DecidableEq α] (s t : OrderedSet α) : OrderedSet α :=
  s.filter (· ∉ t)

instance [DecidableEq α] : SDiff (OrderedSet α) := ⟨sdiff⟩

/-- The members of both sets. -/
def inter [DecidableEq α] (s t : OrderedSet α) : OrderedSet α :=
  s.filter (· ∈ t)

instance [DecidableEq α] : Inter (OrderedSet α) := ⟨inter⟩

/-- The set without `x`. -/
def erase [DecidableEq α] (s : OrderedSet α) (x : α) : OrderedSet α :=
  s.filter (· ≠ x)

/-- The number of members. -/
def size (s : OrderedSet α) : Nat := s.toList.length

/-- Whether there is no member. -/
def isEmpty (s : OrderedSet α) : Bool := s.toList.isEmpty

/-- Whether every member of `s` is a member of `t`. -/
def isSubset [DecidableEq α] (s t : OrderedSet α) : Bool :=
  s.toList.all (· ∈ t)

/-- The least member. -/
def min? (s : OrderedSet α) : Option α := s.toList.head?

/-- The greatest member. -/
def max? (s : OrderedSet α) : Option α := s.toList.getLast?

/-! ## §2. Equal members, equal sets. -/

theorem mem_toList {x : α} {s : OrderedSet α} : x ∈ s.toList ↔ x ∈ s := Iff.rfl

theorem eq_of_toList_eq {s t : OrderedSet α} (h : s.toList = t.toList) : s = t := by
  cases s
  cases t
  cases h
  rfl

instance [DecidableEq α] : DecidableEq (OrderedSet α) := fun s t =>
  if h : s.toList = t.toList then isTrue (eq_of_toList_eq h)
  else isFalse fun e => h (e ▸ rfl)

/-- Ascending lists with the same members are the same list. -/
theorem eq_of_ascending : ∀ {l m : List α}, l.Pairwise (· < ·) →
    m.Pairwise (· < ·) → (∀ x, x ∈ l ↔ x ∈ m) → l = m
  | [], [], _, _, _ => rfl
  | [], y :: _, _, _, h => by simpa using h y
  | x :: _, [], _, _, h => by simpa using h x
  | x :: xs, y :: ys, hl, hm, h => by
      rw [List.pairwise_cons] at hl hm
      have hxy : x = y := by
        rcases List.mem_cons.1 ((h x).1 (by simp)) with e | hx
        · exact e
        · rcases List.mem_cons.1 ((h y).2 (by simp)) with e | hy
          · exact e.symm
          · exact absurd (hl.1 y hy) (KeyOrder.asymm (hm.1 x hx))
      subst hxy
      congr 1
      refine eq_of_ascending hl.2 hm.2 fun z => ?_
      have hz := h z
      simp only [List.mem_cons] at hz
      constructor
      · intro hz'
        rcases hz.1 (Or.inr hz') with rfl | h'
        · exact absurd (hl.1 _ hz') (KeyOrder.irrefl _)
        · exact h'
      · intro hz'
        rcases hz.2 (Or.inr hz') with rfl | h'
        · exact absurd (hm.1 _ hz') (KeyOrder.irrefl _)
        · exact h'

/-- Sets with the same members are equal. -/
@[ext] theorem ext {s t : OrderedSet α} (h : ∀ x, x ∈ s ↔ x ∈ t) : s = t :=
  eq_of_toList_eq (eq_of_ascending s.ascending t.ascending h)

/-- An ascending list has no member twice. -/
theorem nodup (s : OrderedSet α) : s.toList.Nodup :=
  s.ascending.imp KeyOrder.ne_of_lt

/-! ## §3. The members of each result. -/

@[simp] theorem not_mem_empty (x : α) : x ∉ (∅ : OrderedSet α) := List.not_mem_nil

theorem ne_empty_of_mem {x : α} {s : OrderedSet α} (hx : x ∈ s) : s ≠ ∅ :=
  fun e => not_mem_empty x (e ▸ hx)

@[simp] theorem mem_insert {x y : α} {s : OrderedSet α} :
    x ∈ insert y s ↔ x = y ∨ x ∈ s := mem_place

theorem insert_eq_self {x : α} {s : OrderedSet α} (hx : x ∈ s) : insert x s = s :=
  ext fun _ => mem_insert.trans (or_iff_right_of_imp fun e => e ▸ hx)

/-- A new member is one more. -/
theorem perm_insert {x : α} {s : OrderedSet α} (hx : x ∉ s) :
    (insert x s).toList.Perm (x :: s.toList) := perm_place hx

@[simp] theorem mem_singleton {x y : α} : x ∈ singleton y ↔ x = y :=
  List.mem_singleton

@[simp] theorem mem_ofList {x : α} {l : List α} : x ∈ ofList l ↔ x ∈ l := by
  induction l with
  | nil => exact iff_of_false (not_mem_empty x) List.not_mem_nil
  | cons y ys ih =>
      show x ∈ insert y (ofList ys) ↔ _
      rw [mem_insert, ih, List.mem_cons]

@[simp] theorem mem_union {x : α} {s t : OrderedSet α} :
    x ∈ s ∪ t ↔ x ∈ s ∨ x ∈ t := by
  have key : ∀ l : List α, x ∈ l.foldr insert s ↔ x ∈ s ∨ x ∈ l := by
    intro l
    induction l with
    | nil => simp
    | cons y ys ih =>
        rw [List.foldr_cons, mem_insert, ih, List.mem_cons]
        constructor
        · rintro (h | h | h) <;> simp [h]
        · rintro (h | h | h) <;> simp [h]
  exact key t.toList

@[simp] theorem mem_filter {x : α} {p : α → Bool} {s : OrderedSet α} :
    x ∈ s.filter p ↔ x ∈ s ∧ p x = true := List.mem_filter

section DecidableEq

variable [DecidableEq α]

@[simp] theorem mem_sdiff {x : α} {s t : OrderedSet α} :
    x ∈ s \ t ↔ x ∈ s ∧ x ∉ t := by
  show x ∈ s.filter (· ∉ t) ↔ _
  simp

@[simp] theorem mem_inter {x : α} {s t : OrderedSet α} :
    x ∈ s ∩ t ↔ x ∈ s ∧ x ∈ t := by
  show x ∈ s.filter (· ∈ t) ↔ _
  simp

/-- To meet a set with one of its subsets leaves the subset. -/
theorem inter_eq_right {s t : OrderedSet α} (h : ∀ x ∈ t, x ∈ s) : s ∩ t = t :=
  ext fun x => mem_inter.trans (and_iff_right_of_imp (h x))

@[simp] theorem mem_erase {x y : α} {s : OrderedSet α} :
    x ∈ s.erase y ↔ x ∈ s ∧ x ≠ y := by
  show x ∈ s.filter (· ≠ y) ↔ _
  simp

theorem isSubset_iff {s t : OrderedSet α} :
    s.isSubset t = true ↔ ∀ x ∈ s, x ∈ t := by
  unfold isSubset
  rw [List.all_eq_true]
  simp [mem_toList]

end DecidableEq

theorem isEmpty_iff {s : OrderedSet α} : s.isEmpty = true ↔ s = ∅ := by
  constructor
  · intro h
    exact eq_of_toList_eq (List.isEmpty_iff.1 h)
  · rintro rfl
    rfl

end OrderedSet

end FiniteAutomata
