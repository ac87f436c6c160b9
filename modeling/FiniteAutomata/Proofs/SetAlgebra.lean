/-
  FiniteAutomata.Proofs.SetAlgebra
  ────────────────────────────────
  **THE ALGEBRA OF SYMBOL SETS.**

  An `Expr` says how a symbol set is built: from texts, and from other sets by
  union, difference and removal of the empty symbol, nested in any way.  `eval`
  builds the set and `Has` says which symbols it should have.  What is asked of a
  set is read off its points in shortcuts: whether a symbol is in it by a search
  for its place, whether the empty symbol is by the first point, and whether an
  operation changed anything, or two sets share a symbol, by counting.

      mem_eval           what is built has the symbols of the expression
      represents         the points are ascending, and the shortcuts hold
      merge?_eq_none_iff, subtract?_eq_none_iff
                         equal size means that nothing changed
      shareAny_iff       fewer members together than one by one

  Main statement: all of this for whatever an expression builds
  (`eval_represents`).
-/
import FiniteAutomata.Proofs.Determinism
import FiniteAutomata.Proofs.SymbolText
import Mathlib.Data.List.Perm.Subperm

namespace FiniteAutomata.SymbolSet

/-! ## §1. Expressions. -/

/-- The ways in which symbol sets are built. -/
inductive Expr where
  /-- The set that matches nothing. -/
  | nothing
  /-- The set of the empty symbol. -/
  | onlyEmpty
  /-- The symbols that a text lists between delimiters. -/
  | listed (delimiter text : String)
  /-- The symbols of some texts, one symbol each. -/
  | ofTexts (texts : List String)
  /-- A set made of another. -/
  | copy (e : Expr)
  | merge (e : Expr) (others : List Expr)
  | subtract (e : Expr) (others : List Expr)
  | withoutEmpty (e : Expr)

namespace Expr

mutual

/-- The set that an expression builds.  An operation that changes nothing answers the
set that it is applied to. -/
def eval : Expr → Except SymbolError SymbolSet
  | .nothing => .ok ∅
  | .onlyEmpty => .ok SymbolSet.onlyEmpty
  | .listed delimiter text => readWith delimiter text
  | .ofTexts texts => SymbolSet.ofTexts texts
  | .copy e => e.eval
  | .merge e others => do
      let s ← e.eval
      let sets ← evalAll others
      return (s.merge? sets).getD s
  | .subtract e others => do
      let s ← e.eval
      let sets ← evalAll others
      return (s.subtract? sets).getD s
  | .withoutEmpty e => do
      let s ← e.eval
      return s.withoutEmpty?.getD s

/-- The sets that some expressions build. -/
def evalAll : List Expr → Except SymbolError (List SymbolSet)
  | [] => .ok []
  | e :: es => do
      let s ← e.eval
      let sets ← evalAll es
      return s :: sets

end

mutual

/-- The symbols that the set of an expression should have. -/
def Has : Expr → Symbol → Prop
  | .nothing, _ => False
  | .onlyEmpty, x => x = .empty
  | .listed delimiter text, x =>
      ∃ d symbols, delimiter.toList = [d] ∧ symbolsOfText d text.toList = .ok symbols
        ∧ x ∈ symbols
  | .ofTexts texts, x => ∃ t ∈ texts, Symbol.ofText? t = some x
  | .copy e, x => e.Has x
  | .merge e others, x => e.Has x ∨ SomeHas others x
  | .subtract e others, x => e.Has x ∧ ¬ SomeHas others x
  | .withoutEmpty e, x => e.Has x ∧ x ≠ .empty

/-- One of the expressions should have the symbol. -/
def SomeHas : List Expr → Symbol → Prop
  | [], _ => False
  | e :: es, x => e.Has x ∨ SomeHas es x

end

theorem someHas_iff {es : List Expr} {x : Symbol} : SomeHas es x ↔ ∃ e ∈ es, e.Has x := by
  induction es with
  | nil => simp [SomeHas]
  | cons e es ih => simp [SomeHas, ih]

end Expr

/-! ## §2. Operations that change nothing. -/

/-- A set with all members of another and no more than these is that set. -/
theorem eq_of_forall_mem_of_size_eq {s t : SymbolSet} (hsub : ∀ x ∈ s, x ∈ t)
    (hsize : t.size = s.size) : s = t := by
  have hperm : s.symbols.toList.Perm t.symbols.toList :=
    ((nodup_symbols s).subperm hsub).perm_of_length_le (Nat.le_of_eq hsize)
  exact ext fun x => hperm.mem_iff

section Unchanged

variable {s t : SymbolSet}

/-- Where a result of equal size is the set itself, it may be told by its size. -/
theorem ite_size_eq_none_iff (h : t.size = s.size → t = s) :
    (if t.size = s.size then none else some t) = none ↔ t = s := by
  rw [ite_eq_left_iff]
  constructor
  · intro hnone
    by_contra hne
    cases hnone fun hsize => hne (h hsize)
  · exact fun hsame hsize => absurd (congrArg size hsame) hsize

theorem getD_ite_size (h : t.size = s.size → t = s) :
    (if t.size = s.size then none else some t).getD s = t := by
  by_cases hsize : t.size = s.size
  · rw [if_pos hsize]
    exact (h hsize).symm
  · rw [if_neg hsize]
    rfl

theorem merge_eq_of_size_eq {others : List SymbolSet} (h : (s.merge others).size = s.size) :
    s.merge others = s :=
  (eq_of_forall_mem_of_size_eq (fun _ hx => mem_merge.2 (Or.inl hx)) h).symm

theorem subtract_eq_of_size_eq {others : List SymbolSet}
    (h : (s.subtract others).size = s.size) : s.subtract others = s :=
  eq_of_forall_mem_of_size_eq (fun _ hx => (mem_subtract.1 hx).1) h.symm

end Unchanged

theorem merge?_eq_none_iff {s : SymbolSet} {others : List SymbolSet} :
    s.merge? others = none ↔ s.merge others = s :=
  ite_size_eq_none_iff merge_eq_of_size_eq

theorem getD_merge? (s : SymbolSet) (others : List SymbolSet) :
    (s.merge? others).getD s = s.merge others :=
  getD_ite_size merge_eq_of_size_eq

theorem subtract?_eq_none_iff {s : SymbolSet} {others : List SymbolSet} :
    s.subtract? others = none ↔ s.subtract others = s :=
  ite_size_eq_none_iff subtract_eq_of_size_eq

theorem getD_subtract? (s : SymbolSet) (others : List SymbolSet) :
    (s.subtract? others).getD s = s.subtract others :=
  getD_ite_size subtract_eq_of_size_eq

theorem withoutEmpty_eq_self_iff {s : SymbolSet} : s.withoutEmpty = s ↔ .empty ∉ s := by
  constructor
  · intro h hempty
    rw [← h] at hempty
    exact (mem_withoutEmpty.1 hempty).2 rfl
  · intro h
    refine ext fun x => ?_
    rw [mem_withoutEmpty, and_iff_left_iff_imp]
    rintro hx rfl
    exact h hx

theorem withoutEmpty?_eq_none_iff {s : SymbolSet} :
    s.withoutEmpty? = none ↔ s.withoutEmpty = s := by
  unfold withoutEmpty?
  rw [withoutEmpty_eq_self_iff, ← has_iff]
  exact ite_eq_right_iff.trans (by simp [hasEmpty])

theorem getD_withoutEmpty? (s : SymbolSet) : s.withoutEmpty?.getD s = s.withoutEmpty := by
  unfold withoutEmpty?
  by_cases hempty : s.hasEmpty = true
  · rw [if_pos hempty]
    rfl
  · rw [if_neg hempty]
    exact (withoutEmpty_eq_self_iff.2 fun h => hempty (has_iff.2 h)).symm

/-! ## §3. What is built. -/

/-- The symbols of some texts, one each, in order. -/
theorem mem_symbolsOfTexts {texts : List String} {symbols : List Symbol}
    (h : symbolsOfTexts texts = .ok symbols) {x : Symbol} :
    x ∈ symbols ↔ ∃ t ∈ texts, Symbol.ofText? t = some x := by
  induction texts generalizing symbols with
  | nil =>
      injection h with h
      subst h
      simp
  | cons t texts ih =>
      rw [symbolsOfTexts] at h
      cases ht : Symbol.ofText? t with
      | none =>
          rw [ht] at h
          cases h
      | some y =>
          rw [ht] at h
          cases hrest : symbolsOfTexts texts with
          | error e =>
              rw [hrest] at h
              cases h
          | ok rest =>
              rw [hrest] at h
              injection h with h
              subst h
              simp [ih hrest, ht, eq_comm]

theorem mem_of_ofTexts {texts : List String} {s : SymbolSet}
    (h : SymbolSet.ofTexts texts = .ok s) {x : Symbol} :
    x ∈ s ↔ ∃ t ∈ texts, Symbol.ofText? t = some x := by
  unfold SymbolSet.ofTexts at h
  obtain ⟨symbols, hsymbols, hs⟩ := bind_eq_ok.1 h
  rw [← mem_symbolsOfTexts hsymbols, ← OrderedSet.mem_ofList, ← ofSymbols_eq_ok_iff.1 hs]
  rfl

theorem mem_of_readWith {delimiter text : String} {s : SymbolSet}
    (h : readWith delimiter text = .ok s) {x : Symbol} :
    x ∈ s ↔ ∃ d symbols, delimiter.toList = [d] ∧ symbolsOfText d text.toList = .ok symbols
      ∧ x ∈ symbols := by
  unfold readWith at h
  split at h
  · next d hd =>
    obtain ⟨symbols, hsymbols, hs⟩ := readBy_eq_ok_iff.1 h
    rw [hs, hd]
    constructor
    · exact fun hx => ⟨d, symbols, rfl, hsymbols, hx⟩
    · rintro ⟨d', symbols', hd', hsymbols', hx⟩
      injection hd' with hd'
      rw [← hd', hsymbols] at hsymbols'
      injection hsymbols' with hsymbols'
      exact hsymbols' ▸ hx
  · cases h

namespace Expr

mutual

/-- **What is built has the symbols that it should have.** -/
theorem mem_eval {e : Expr} {s : SymbolSet} (h : e.eval = .ok s) (x : Symbol) :
    x ∈ s ↔ e.Has x := by
  cases e with
  | nothing =>
      injection h with h
      subst h
      exact iff_of_false (not_mem_nothing x) not_false
  | onlyEmpty =>
      injection h with h
      subst h
      exact mem_onlyEmpty
  | listed delimiter text => exact mem_of_readWith h
  | ofTexts texts => exact mem_of_ofTexts h
  | copy e => exact mem_eval (e := e) h x
  | merge e others =>
      obtain ⟨t, ht, h⟩ := bind_eq_ok.1 h
      obtain ⟨sets, hsets, h⟩ := bind_eq_ok.1 h
      injection h with h
      rw [← h, getD_merge?, mem_merge, mem_eval ht, mem_evalAll hsets]
      rfl
  | subtract e others =>
      obtain ⟨t, ht, h⟩ := bind_eq_ok.1 h
      obtain ⟨sets, hsets, h⟩ := bind_eq_ok.1 h
      injection h with h
      rw [← h, getD_subtract?, mem_subtract, mem_eval ht]
      refine and_congr_right fun _ => ?_
      rw [← mem_evalAll hsets]
      simp
  | withoutEmpty e =>
      obtain ⟨t, ht, h⟩ := bind_eq_ok.1 h
      injection h with h
      rw [← h, getD_withoutEmpty?, mem_withoutEmpty, mem_eval ht]
      rfl

theorem mem_evalAll {es : List Expr} {sets : List SymbolSet} (h : evalAll es = .ok sets)
    (x : Symbol) : (∃ s ∈ sets, x ∈ s) ↔ SomeHas es x := by
  cases es with
  | nil =>
      injection h with h
      subst h
      simp [SomeHas]
  | cons e es =>
      obtain ⟨s, hs, h⟩ := bind_eq_ok.1 h
      obtain ⟨sets', hsets, h⟩ := bind_eq_ok.1 h
      injection h with h
      subst h
      simp only [List.exists_mem_cons_iff, SomeHas]
      rw [mem_eval hs, mem_evalAll hsets]

end

/-- Expressions and the sets that they build stand at the same positions. -/
theorem getElem?_evalAll {es : List Expr} {sets : List SymbolSet} (h : evalAll es = .ok sets)
    (i : Nat) :
    (∀ e, es[i]? = some e → ∃ s, sets[i]? = some s ∧ e.eval = .ok s)
      ∧ ∀ s, sets[i]? = some s → ∃ e, es[i]? = some e ∧ e.eval = .ok s := by
  induction es generalizing sets i with
  | nil =>
      injection h with h
      subst h
      exact ⟨nofun, nofun⟩
  | cons e es ih =>
      obtain ⟨s, hs, h⟩ := bind_eq_ok.1 h
      obtain ⟨sets', hsets, h⟩ := bind_eq_ok.1 h
      injection h with h
      subst h
      cases i with
      | zero => simp [hs]
      | succ i => exact ih hsets i

end Expr

/-! ## §4. Points. -/

/-- The points of the members, in order. -/
def points (s : SymbolSet) : List Int := s.symbols.toList.map Symbol.point

/-- The place of a point: as many points of the set come before it. -/
def rank (s : SymbolSet) (p : Int) : Nat := s.points.countP (· < p)

/-- In an ascending list a value need only be looked for at its place. -/
theorem getElem?_countP_eq_some_iff {l : List Int} (h : l.Pairwise (· < ·)) (p : Int) :
    l[l.countP (· < p)]? = some p ↔ p ∈ l := by
  induction l with
  | nil => simp
  | cons q l ih =>
      obtain ⟨hq, hl⟩ := List.pairwise_cons.1 h
      by_cases hlt : q < p
      · rw [List.countP_cons_of_pos (by simpa using hlt), List.getElem?_cons_succ, ih hl,
          List.mem_cons, or_iff_right (by omega)]
      · -- Nothing comes before `p`, so only the first value can be it.
        have hnone : l.countP (· < p) = 0 := by
          rw [List.countP_eq_zero]
          intro r hr
          have hqr := hq r hr
          simp only [decide_eq_true_eq]
          omega
        rw [List.countP_cons_of_neg (by simpa using hlt), hnone, List.getElem?_cons_zero,
          Option.some_inj, List.mem_cons, eq_comm, iff_self_or]
        intro hp
        exact absurd (hq p hp) hlt

theorem points_ascending (s : SymbolSet) : s.points.Pairwise (· < ·) :=
  List.pairwise_map.2 s.symbols.ascending

theorem point_mem_points {s : SymbolSet} {x : Symbol} : x.point ∈ s.points ↔ x ∈ s := by
  unfold points
  rw [List.mem_map]
  constructor
  · rintro ⟨y, hy, hxy⟩
    exact Symbol.point_injective hxy ▸ hy
  · exact fun hx => ⟨x, hx, rfl⟩

theorem neg_one_le_point (x : Symbol) : -1 ≤ x.point := by
  cases x with
  | empty => exact Int.le_refl _
  | char c =>
      show (-1 : Int) ≤ c.toNat
      omega

/-- The empty symbol comes before all others. -/
theorem empty_mem_iff_head? {s : SymbolSet} :
    .empty ∈ s ↔ s.points.head? = some (-1) := by
  rw [← point_mem_points]
  show (-1 : Int) ∈ s.points ↔ _
  have hascending := s.points_ascending
  have hleast : ∀ p ∈ s.points, -1 ≤ p := by
    intro p hp
    obtain ⟨x, _, rfl⟩ := List.mem_map.1 hp
    exact neg_one_le_point x
  cases hpoints : s.points with
  | nil => simp
  | cons p l =>
      rw [hpoints] at hascending hleast
      rw [List.head?_cons, Option.some_inj, List.mem_cons, eq_comm, or_iff_left]
      intro hmem
      have hlt := (List.pairwise_cons.1 hascending).1 _ hmem
      have hle := hleast p List.mem_cons_self
      omega

/-- Sets are equal if their points are. -/
theorem eq_iff_points_eq {s t : SymbolSet} : s = t ↔ s.points = t.points := by
  refine ⟨congrArg points, fun h => ext fun x => ?_⟩
  rw [← point_mem_points, h, point_mem_points]

theorem exists_toList_eq_cons {s : SymbolSet} (h : s.hasEmpty = true) :
    ∃ rest, s.symbols.toList = .empty :: rest := by
  have hfirst := empty_mem_iff_head?.1 (has_iff.1 h)
  unfold points at hfirst
  cases hsymbols : s.symbols.toList with
  | nil =>
      rw [hsymbols] at hfirst
      cases hfirst
  | cons x rest =>
      rw [hsymbols, List.map_cons, List.head?_cons, Option.some_inj] at hfirst
      obtain rfl : x = .empty := Symbol.point_injective hfirst
      exact ⟨rest, rfl⟩

/-- To leave out the empty symbol is to leave out the first point. -/
theorem points_withoutEmpty {s : SymbolSet} (h : s.hasEmpty = true) :
    s.withoutEmpty.points = s.points.tail := by
  obtain ⟨rest, hsymbols⟩ := exists_toList_eq_cons h
  have hascending := s.symbols.ascending
  have hnodup := s.symbols.nodup
  rw [hsymbols] at hascending hnodup
  have hrest : s.withoutEmpty.symbols.toList = rest := by
    refine OrderedSet.eq_of_ascending s.withoutEmpty.symbols.ascending
      (List.pairwise_cons.1 hascending).2 fun x => ?_
    have hmem : x ∈ s ↔ x = .empty ∨ x ∈ rest := by
      rw [← List.mem_cons, ← hsymbols]
      rfl
    show x ∈ s.withoutEmpty ↔ _
    rw [mem_withoutEmpty, hmem]
    constructor
    · rintro ⟨rfl | hx, hne⟩
      · exact absurd rfl hne
      · exact hx
    · intro hx
      refine ⟨Or.inr hx, ?_⟩
      rintro rfl
      exact (List.nodup_cons.1 hnodup).1 hx
  unfold points
  rw [hrest, hsymbols]
  rfl

/-- The points of symbols that are allowed. -/
def IsAllowedPoint (p : Int) : Prop :=
  p = -1 ∨ 0 ≤ p ∧ p < 0x80
    ∨ ∃ block ∈ Symbol.blocks, (block.first : Int) ≤ p ∧ p ≤ block.last

theorem isAllowedPoint_of_isAllowed {x : Symbol} (h : x.isAllowed = true) :
    IsAllowedPoint x.point := by
  cases x with
  | empty => exact Or.inl rfl
  | char c =>
      rw [Symbol.isAllowed, Symbol.isAllowedChar, Bool.or_eq_true, decide_eq_true_iff] at h
      obtain hascii | hblock := h
      · refine Or.inr (Or.inl ⟨?_, ?_⟩)
        · exact Int.natCast_nonneg _
        · show (c.toNat : Int) < 0x80
          omega
      · obtain ⟨block, hblock⟩ := Option.isSome_iff_exists.1 hblock
        obtain ⟨hblock, hc⟩ := blockOf?_eq_some hblock
        rw [CharRange.contains_iff] at hc
        exact Or.inr (Or.inr ⟨block, hblock, Int.ofNat_le.2 hc.1, Int.ofNat_le.2 hc.2⟩)

/-! ## §5. Sets that represent. -/

/-- A set is the ascending list of the points of some symbols, and what is asked of it
can be read off that list. -/
structure Represents (s : SymbolSet) (S : Symbol → Prop) : Prop where
  ascending : s.points.Pairwise (· < ·)
  allowed : ∀ p ∈ s.points, IsAllowedPoint p
  mem_points_iff : ∀ x : Symbol, x.point ∈ s.points ↔ S x
  /-- The empty symbol is first if it is there. -/
  empty_iff : S .empty ↔ s.points.head? = some (-1)
  hasEmpty_iff : s.hasEmpty = true ↔ s.points.head? = some (-1)
  withoutEmpty_points : s.hasEmpty = true → s.withoutEmpty.points = s.points.tail
  /-- A search need only look at one place. -/
  found_iff : ∀ x : Symbol, s.points[s.rank x.point]? = some x.point ↔ S x
  hasText_iff : ∀ text, s.hasText text = true ↔ ∃ x, Symbol.ofText? text = some x ∧ S x
  /-- No text of several characters is a symbol. -/
  hasText_long : ∀ text : String, 2 ≤ text.toList.length → s.hasText text = false

theorem hasText_iff {s : SymbolSet} {text : String} :
    s.hasText text = true ↔ ∃ x, Symbol.ofText? text = some x ∧ x ∈ s := by
  unfold hasText
  cases Symbol.ofText? text <;> simp

theorem ofText?_eq_none {text : String} (h : 2 ≤ text.toList.length) :
    Symbol.ofText? text = none := by
  unfold Symbol.ofText?
  split
  · next heq => simp [heq] at h
  · next heq => simp [heq] at h
  · rfl

theorem represents {s : SymbolSet} {S : Symbol → Prop} (h : ∀ x, x ∈ s ↔ S x) :
    s.Represents S where
  ascending := s.points_ascending
  allowed := by
    intro p hp
    obtain ⟨x, hx, rfl⟩ := List.mem_map.1 hp
    exact isAllowedPoint_of_isAllowed (s.allowed x hx)
  mem_points_iff x := point_mem_points.trans (h x)
  empty_iff := (h .empty).symm.trans empty_mem_iff_head?
  hasEmpty_iff := has_iff.trans empty_mem_iff_head?
  withoutEmpty_points := points_withoutEmpty
  found_iff x := by
    unfold rank
    rw [getElem?_countP_eq_some_iff s.points_ascending, point_mem_points, h]
  hasText_iff text := by
    rw [SymbolSet.hasText_iff]
    simp only [h]
  hasText_long text hlong := by
    rw [hasText, ofText?_eq_none hlong]

/-- The answer of an operation on a set, where `none` is the set itself: it has some
symbols, and it is the set itself iff these are the symbols of the set. -/
def Answers (s : SymbolSet) (answer : Option SymbolSet) (S : Symbol → Prop) : Prop :=
  (answer.getD s).Represents S ∧ (answer = none ↔ ∀ x, S x ↔ x ∈ s)

theorem answers {s t : SymbolSet} {answer : Option SymbolSet} {S : Symbol → Prop}
    (hget : answer.getD s = t) (hnone : answer = none ↔ t = s) (h : ∀ x, x ∈ t ↔ S x) :
    s.Answers answer S := by
  refine ⟨represents (hget ▸ h), hnone.trans ⟨?_, ?_⟩⟩
  · rintro rfl x
    exact (h x).symm
  · exact fun hall => ext fun x => (h x).trans (hall x)

/-- Two of several sets share a symbol, each set counted at its position. -/
theorem shareAny_iff {sets : List SymbolSet} :
    shareAny sets = true
      ↔ ∃ (i j : Nat) (s t : SymbolSet) (x : Symbol), i ≠ j ∧ sets[i]? = some s
          ∧ sets[j]? = some t ∧ x ∈ s ∧ x ∈ t := by
  rw [← Bool.not_eq_false, shareAny_eq_false_iff, List.pairwise_iff_getElem]
  constructor
  · intro h
    push Not at h
    obtain ⟨i, j, hi, hj, hij, h⟩ := h
    unfold Apart at h
    push Not at h
    obtain ⟨x, hx, hx'⟩ := h
    exact ⟨i, j, _, _, x, Nat.ne_of_lt hij, List.getElem?_eq_getElem hi,
      List.getElem?_eq_getElem hj, hx, hx'⟩
  · rintro ⟨i, j, s, t, x, hne, hi, hj, hs, ht⟩ hapart
    obtain ⟨hilt, rfl⟩ := List.getElem?_eq_some_iff.1 hi
    obtain ⟨hjlt, rfl⟩ := List.getElem?_eq_some_iff.1 hj
    obtain hij | hji := Nat.lt_or_gt_of_ne hne
    · exact hapart i j hilt hjlt hij x hs ht
    · exact hapart j i hjlt hilt hji x ht hs

/-- Sets that expressions build share a symbol iff two of the expressions do. -/
theorem Expr.shareAny_iff {es : List Expr} {sets : List SymbolSet}
    (h : Expr.evalAll es = .ok sets) :
    shareAny sets = true
      ↔ ∃ (i j : Nat) (a b : Expr) (x : Symbol), i ≠ j ∧ es[i]? = some a ∧ es[j]? = some b
          ∧ a.Has x ∧ b.Has x := by
  rw [SymbolSet.shareAny_iff]
  constructor
  · rintro ⟨i, j, t, u, x, hij, hi, hj, ht, hu⟩
    obtain ⟨a, ha, hat⟩ := (getElem?_evalAll h i).2 t hi
    obtain ⟨b, hb, hbu⟩ := (getElem?_evalAll h j).2 u hj
    exact ⟨i, j, a, b, x, hij, ha, hb, (mem_eval hat x).1 ht, (mem_eval hbu x).1 hu⟩
  · rintro ⟨i, j, a, b, x, hij, ha, hb, hxa, hxb⟩
    obtain ⟨t, hi, hat⟩ := (getElem?_evalAll h i).1 a ha
    obtain ⟨u, hj, hbu⟩ := (getElem?_evalAll h j).1 b hb
    exact ⟨i, j, t, u, x, hij, hi, hj, (mem_eval hat x).2 hxa, (mem_eval hbu x).2 hxb⟩

theorem ofText?_toText (x : Symbol) : Symbol.ofText? x.toText = some x := by
  cases x with
  | empty => rfl
  | char c => rw [Symbol.toText, Symbol.ofText?, String.toList_singleton]

theorem symbolsOfTexts_toText (l : List Symbol) : symbolsOfTexts (l.map Symbol.toText) = .ok l := by
  induction l with
  | nil => rfl
  | cons x l ih =>
      rw [List.map_cons, symbolsOfTexts, ofText?_toText]
      simp only [ih]
      rfl

/-- The symbols of a set, taken out as texts, make up the set again. -/
theorem ofTexts_toText (s : SymbolSet) :
    SymbolSet.ofTexts (s.symbols.toList.map Symbol.toText) = .ok s := by
  unfold SymbolSet.ofTexts
  rw [symbolsOfTexts_toText]
  exact ofSymbols_ofList fun x => Iff.rfl

/-- **Symbol sets are the sets that their expressions say**, and they answer as such.
The points of a set that an expression builds are in order and what is asked of the
set can be read off them; union, difference and removal of the empty symbol give the
sets of that name, the set itself just if nothing changes; inclusion and equality are
those of the symbols; the symbols of a set make it up again; and two of several sets
share a symbol iff sets at two different positions do. -/
theorem eval_represents {e e' : Expr} {others : List Expr} {s s' : SymbolSet}
    {sets : List SymbolSet} (hs : e.eval = .ok s) (hs' : e'.eval = .ok s')
    (hsets : Expr.evalAll others = .ok sets) :
    s.Represents e.Has
      ∧ s.Answers (s.merge? sets) (fun x => e.Has x ∨ ∃ b ∈ others, b.Has x)
      ∧ s.Answers (s.subtract? sets) (fun x => e.Has x ∧ ¬ ∃ b ∈ others, b.Has x)
      ∧ s.Answers s.withoutEmpty? (fun x => e.Has x ∧ x ≠ .empty)
      ∧ (s.contains s' = true ↔ ∀ x, e'.Has x → e.Has x)
      ∧ (s = s' ↔ s.points = s'.points)
      ∧ (s = s' ↔ ∀ x, e.Has x ↔ e'.Has x)
      ∧ SymbolSet.ofTexts (s.symbols.toList.map Symbol.toText) = .ok s
      ∧ (shareAny sets = true ↔ ∃ (i j : Nat) (a b : Expr) (x : Symbol), i ≠ j
          ∧ others[i]? = some a ∧ others[j]? = some b ∧ a.Has x ∧ b.Has x) := by
  have hmem := Expr.mem_eval hs
  have hmem' := Expr.mem_eval hs'
  have hothers : ∀ x, (∃ t ∈ sets, x ∈ t) ↔ ∃ b ∈ others, b.Has x :=
    fun x => (Expr.mem_evalAll hsets x).trans Expr.someHas_iff
  refine ⟨represents hmem, answers (getD_merge? s sets) merge?_eq_none_iff fun x => ?_,
    answers (getD_subtract? s sets) subtract?_eq_none_iff fun x => ?_,
    answers (getD_withoutEmpty? s) withoutEmpty?_eq_none_iff fun x => ?_, ?_,
    eq_iff_points_eq, ?_, ofTexts_toText s, Expr.shareAny_iff hsets⟩
  · rw [mem_merge, hmem, hothers]
  · rw [mem_subtract, hmem, ← hothers]
    simp
  · rw [mem_withoutEmpty, hmem]
  · rw [contains_iff]
    exact forall_congr' fun x => by rw [hmem, hmem']
  · rw [SymbolSet.ext_iff]
    exact forall_congr' fun x => by rw [hmem, hmem']

/-- Two vowels. -/
def vowels : SymbolSet := ⟨.ofList [.char 'a', .char 'e'], by decide⟩

/-- The vowels by way of a set with the empty symbol. -/
def vowelExpr : Expr := .withoutEmpty (.merge (.listed "," "e,") [.ofTexts ["", "a"]])

/-- A set with itself twice over does not grow, and it shares its symbols with itself. -/
theorem eval_represents_vowels :
    vowelExpr.eval = .ok vowels ∧ Expr.evalAll [vowelExpr, .copy vowelExpr] = .ok [vowels, vowels]
      ∧ vowels.Represents vowelExpr.Has ∧ vowels.merge? [vowels, vowels] = none
      ∧ shareAny [vowels, vowels] = true := by
  have hvowels : vowelExpr.eval = .ok vowels := by decide +kernel
  have hboth : Expr.evalAll [vowelExpr, .copy vowelExpr] = .ok [vowels, vowels] := by
    decide +kernel
  obtain ⟨hrepresents, hmerge, _, _, _, _, _, _, hshare⟩ := eval_represents hvowels hvowels hboth
  have hmem := Expr.mem_eval hvowels
  have ha : vowelExpr.Has (.char 'a') := (hmem _).1 (by decide)
  refine ⟨hvowels, hboth, hrepresents, hmerge.2.2 fun x => ?_, ?_⟩
  · rw [hmem]
    simp [Expr.Has]
  · exact hshare.2 ⟨0, 1, _, _, .char 'a', by decide, rfl, rfl, ha, ha⟩

end FiniteAutomata.SymbolSet
