/-
  FiniteAutomata.Graph.Search
  ───────────────────────────
  **WORKLISTS: FOLLOWING EDGES ONE ID AT A TIME.**

  A search keeps the ids that it has seen, and as its frontier those of them that it has
  yet to expand.  To expand an id takes it out of the frontier and follows the edges
  that leave it: targets that are new are seen from then on and join the frontier.  A
  record of the edges may be kept.  Neither the order in which ids are taken nor the
  order in which edges are followed is fixed.

  The ids that were taken and the frontier together are the ids seen, each once
  (`Inv.accounted`).  So however a search goes on it ends, and always with what
  `saturate` gives:

      Takes.inv               what every step keeps holds after all
      Inv.length_le           no id is taken twice, and none that is not linked
      Inv.exists_finished     a search that has not ended can be brought to its end
      Inv.seen_eq             the ids seen in the end
      Inv.record_eq           the edges recorded in the end
      Indexes.finds           any search finds what its edges lead to, and ends
-/
import FiniteAutomata.Graph.Saturation
import Mathlib.Data.List.Nodup
import Mathlib.Data.List.Perm.Subperm

namespace FiniteAutomata

theorem OrderedSet.size_le_of_subset {α : Type} [KeyOrder α] {s t : OrderedSet α}
    (h : ∀ x ∈ s, x ∈ t) : s.size ≤ t.size :=
  (s.nodup.subperm h).length_le

/-! ## §1. Searches. -/

/-- The ids seen, those of them that are yet to be expanded, and the edges followed if a
record of them is kept. -/
structure Search where
  seen : StateSet
  frontier : List StateId
  record : Option (List Edge)

namespace Search

/-- At the start all ids seen are yet to be expanded; the record may have edges of
another search. -/
def Begins (s : Search) : Prop := s.frontier.Perm s.seen.toList

/-- Follow an edge. -/
def follow (s : Search) (e : Edge) : Search where
  seen := OrderedSet.insert e.target s.seen
  frontier := if e.target ∈ s.seen then s.frontier else s.frontier ++ [e.target]
  record := s.record.map (· ++ [e])

/-- Follow edges one after the other. -/
def followAll (s : Search) (edges : List Edge) : Search := edges.foldl follow s

/-- `Expands next s o s'`: some id `o` of the frontier is taken out, and the edges that
leave it are followed in some order. -/
def Expands (next : StateId → List Edge) (s : Search) (o : StateId) (s' : Search) : Prop :=
  ∃ rest edges, s.frontier.Perm (o :: rest) ∧ edges.Perm (next o)
    ∧ s' = followAll { s with frontier := rest } edges

/-- `Takes next s taken s'`: the search leads from `s` to `s'` and takes these ids on the
way, in this order. -/
inductive Takes (next : StateId → List Edge) : Search → List StateId → Search → Prop where
  | nil (s : Search) : Takes next s [] s
  | cons {s s' s'' : Search} {o : StateId} {taken : List StateId} :
      Expands next s o s' → Takes next s' taken s'' → Takes next s (o :: taken) s''

/-- `Indexes next edges`: for each id the edges of a list that leave it. -/
def Indexes (next : StateId → List Edge) (edges : List Edge) : Prop :=
  ∀ o e, e ∈ next o ↔ e ∈ edges ∧ e.origin = o

/-! ## §2. Edges that are followed. -/

variable {next : StateId → List Edge} {edges : List Edge} {start s s' : Search}
  {taken more : List StateId} {o : StateId}

theorem mem_seen_followAll {x : StateId} :
    x ∈ (s.followAll edges).seen ↔ x ∈ s.seen ∨ ∃ e ∈ edges, e.target = x := by
  induction edges generalizing s with
  | nil => simp [followAll]
  | cons e edges ih =>
      show x ∈ ((s.follow e).followAll edges).seen ↔ _
      rw [ih]
      show x ∈ OrderedSet.insert e.target s.seen ∨ _ ↔ _
      simp [or_assoc, or_left_comm, eq_comm]

theorem record_followAll : (s.followAll edges).record = s.record.map (· ++ edges) := by
  induction edges generalizing s with
  | nil => simp [followAll]
  | cons e edges ih =>
      show ((s.follow e).followAll edges).record = _
      rw [ih]
      show (s.record.map (· ++ [e])).map (· ++ edges) = _
      simp [Function.comp_def]

/-- What is seen is in the frontier or has been taken, and it stays so. -/
theorem perm_follow (h : (taken ++ s.frontier).Perm s.seen.toList) (e : Edge) :
    (taken ++ (s.follow e).frontier).Perm (s.follow e).seen.toList := by
  unfold follow
  by_cases he : e.target ∈ s.seen
  · rw [if_pos he, OrderedSet.insert_eq_self he]
    exact h
  · rw [if_neg he]
    calc taken ++ (s.frontier ++ [e.target])
        = (taken ++ s.frontier) ++ [e.target] := (List.append_assoc ..).symm
      List.Perm _ (e.target :: (taken ++ s.frontier)) := List.perm_append_singleton ..
      List.Perm _ (e.target :: s.seen.toList) := h.cons e.target
      List.Perm _ (OrderedSet.insert e.target s.seen).toList := (OrderedSet.perm_insert he).symm

theorem perm_followAll (h : (taken ++ s.frontier).Perm s.seen.toList) :
    (taken ++ (s.followAll edges).frontier).Perm (s.followAll edges).seen.toList := by
  induction edges generalizing s with
  | nil => exact h
  | cons e edges ih => exact ih (perm_follow h e)

/-! ## §3. What every step keeps. -/

/-- What holds of a search that has taken some ids since its start. -/
structure Inv (next : StateId → List Edge) (edges : List Edge) (start : Search)
    (taken : List StateId) (s : Search) : Prop where
  /-- Each id seen has been taken once, or it is in the frontier once. -/
  accounted : (taken ++ s.frontier).Perm s.seen.toList
  grown : ∀ x ∈ start.seen, x ∈ s.seen
  linked : ∀ x ∈ s.seen, ∃ y ∈ start.seen, Linked edges y x
  closed : ∀ x ∈ taken, ∀ e ∈ next x, e.target ∈ s.seen
  recorded : ∃ l, l.Perm (taken.flatMap next) ∧ s.record = start.record.map (· ++ l)

/-- Nothing has been taken at the start. -/
theorem Begins.inv (h : start.Begins) : Inv next edges start [] start where
  accounted := h
  grown _ hx := hx
  linked x hx := ⟨x, hx, .refl x⟩
  closed _ hx := absurd hx List.not_mem_nil
  recorded := ⟨[], .refl _, by simp⟩

/-- **One step.** -/
theorem Inv.expand (h : Inv next edges start taken s) (hnext : Indexes next edges)
    (hs : Expands next s o s') : Inv next edges start (taken ++ [o]) s' := by
  obtain ⟨rest, followed, hfrontier, hfollowed, rfl⟩ := hs
  have hmem : ∀ e, e ∈ followed ↔ e ∈ edges ∧ e.origin = o :=
    fun e => hfollowed.mem_iff.trans (hnext o e)
  have hmove : ((taken ++ [o]) ++ rest).Perm s.seen.toList := by
    rw [List.append_assoc]
    exact (hfrontier.symm.append_left taken).trans h.accounted
  have ho : o ∈ s.seen := hmove.mem_iff.1 (by simp)
  refine ⟨perm_followAll hmove, ?_, ?_, ?_, ?_⟩
  · exact fun x hx => mem_seen_followAll.2 (Or.inl (h.grown x hx))
  · intro x hx
    obtain hx | ⟨e, he, rfl⟩ := mem_seen_followAll.1 hx
    · exact h.linked x hx
    · -- The target of an edge is linked to what its origin is linked to.
      obtain ⟨he, horigin⟩ := (hmem e).1 he
      obtain ⟨y, hy, hl⟩ := h.linked o ho
      exact ⟨y, hy, .tail e (horigin ▸ hl) he rfl⟩
  · intro x hx e he
    obtain hx | hx := List.mem_append.1 hx
    · exact mem_seen_followAll.2 (Or.inl (h.closed x hx e he))
    · rw [List.mem_singleton.1 hx] at he
      exact mem_seen_followAll.2 (Or.inr ⟨e, hfollowed.mem_iff.2 he, rfl⟩)
  · obtain ⟨l, hl, hrecord⟩ := h.recorded
    refine ⟨l ++ followed, ?_, ?_⟩
    · rw [List.flatMap_append, List.flatMap_singleton]
      exact hl.append hfollowed
    · rw [record_followAll, hrecord]
      simp [Function.comp_def]

/-- **All steps.** -/
theorem Takes.inv (h : Takes next s more s') (hnext : Indexes next edges)
    (hs : Inv next edges start taken s) : Inv next edges start (taken ++ more) s' := by
  induction h generalizing taken with
  | nil => simpa using hs
  | cons hfirst _ ih => simpa using ih (hs.expand hnext hfirst)

/-! ## §4. Every search ends. -/

/-- What is seen is linked to where the search starts. -/
theorem Inv.mem_saturate (h : Inv next edges start taken s) {x : StateId} (hx : x ∈ s.seen) :
    x ∈ (saturate start.seen edges).seen :=
  FiniteAutomata.mem_saturate.2 (h.linked x hx)

/-- The ids taken and those of the frontier are no more than there are in the end. -/
theorem Inv.length_le (h : Inv next edges start taken s) :
    taken.length + s.frontier.length ≤ (saturate start.seen edges).seen.size := by
  calc taken.length + s.frontier.length = s.seen.size := by
        rw [← List.length_append]
        exact h.accounted.length_eq
    _ ≤ _ := OrderedSet.size_le_of_subset fun _ => h.mem_saturate

/-- Any id of the frontier can be taken next. -/
theorem exists_expands (ho : o ∈ s.frontier) : ∃ s', Expands next s o s' :=
  ⟨_, s.frontier.erase o, next o, List.perm_cons_erase ho, .refl _, rfl⟩

/-- **A search that has not ended can be brought to its end.** -/
theorem Inv.exists_finished (h : Inv next edges start taken s) (hnext : Indexes next edges) :
    ∃ more last, Takes next s more last ∧ last.frontier = [] := by
  -- The more ids are taken, the fewer are left of those that there are in the end.
  generalize hleft : (saturate start.seen edges).seen.size - taken.length = left
  induction left generalizing taken s with
  | zero =>
      have hle := h.length_le
      exact ⟨[], s, .nil s, List.length_eq_zero_iff.1 (by omega)⟩
  | succ left ih =>
      cases hfrontier : s.frontier with
      | nil => exact ⟨[], s, .nil s, hfrontier⟩
      | cons o rest =>
          obtain ⟨s', hs'⟩ : ∃ s', Expands next s o s' :=
            exists_expands (hfrontier ▸ List.mem_cons_self)
          obtain ⟨more, last, hmore, hlast⟩ := ih (h.expand hnext hs') (by simp; omega)
          exact ⟨o :: more, last, .cons hs' hmore, hlast⟩

/-! ## §5. What it ends with. -/

section Finished

variable (h : Inv next edges start taken s) (hend : s.frontier = [])
include h hend

/-- In the end each id seen has been taken once. -/
theorem Inv.perm_taken : taken.Perm s.seen.toList := by
  simpa [hend] using h.accounted

/-- **The ids seen in the end** are those that the start leads to. -/
theorem Inv.seen_eq (hnext : Indexes next edges) :
    s.seen = (saturate start.seen edges).seen := by
  refine OrderedSet.ext fun x => ⟨h.mem_saturate, fun hx => ?_⟩
  obtain ⟨y, hy, hl⟩ := FiniteAutomata.mem_saturate.1 hx
  induction hl with
  | refl => exact h.grown y hy
  | tail e hl he heq ih =>
      subst heq
      have horigin : e.origin ∈ s.seen := ih (FiniteAutomata.mem_saturate.2 ⟨y, hy, hl⟩)
      have htaken : e.origin ∈ taken := (h.perm_taken hend).mem_iff.2 horigin
      exact h.closed e.origin htaken e ((hnext e.origin e).2 ⟨he, rfl⟩)

/-- **The edges recorded in the end** are those that leave an id seen, each once. -/
theorem Inv.record_eq (hnext : Indexes next edges) (hnodup : ∀ x, (next x).Nodup)
    (hedges : (saturate start.seen edges).followed.Nodup) :
    ∃ l, l.Perm (saturate start.seen edges).followed
      ∧ s.record = start.record.map (· ++ l) := by
  obtain ⟨l, hl, hrecord⟩ := h.recorded
  refine ⟨l, hl.trans ?_, hrecord⟩
  have htaken : taken.Nodup := (h.perm_taken hend).nodup_iff.2 s.seen.nodup
  have hrows : (taken.flatMap next).Nodup := by
    refine List.nodup_flatMap.2 ⟨fun x _ => hnodup x, htaken.imp ?_⟩
    -- An edge leaves one id only.
    intro x y hxy e hx hy
    exact hxy (((hnext x e).1 hx).2.symm.trans ((hnext y e).1 hy).2)
  refine (List.perm_ext_iff_of_nodup hrows hedges).2 fun e => ?_
  rw [mem_followed, ← h.seen_eq hend hnext, List.mem_flatMap]
  constructor
  · intro he
    obtain ⟨x, hx, hleaves⟩ := he
    obtain ⟨hedge, rfl⟩ := (hnext x e).1 hleaves
    exact ⟨hedge, (h.perm_taken hend).mem_iff.1 hx⟩
  · intro he
    obtain ⟨he, hx⟩ := he
    exact ⟨e.origin, (h.perm_taken hend).mem_iff.2 hx, (hnext e.origin e).2 ⟨he, rfl⟩⟩

end Finished

/-! ## §6. Searches that find a set. -/

/-- `Finds next ids result`: however a search from these ids goes on, it takes at most as
many ids as `result` has and can be brought to its end; and at its end it has seen
`result` and has taken each id of it once. -/
def Finds (next : StateId → List Edge) (ids result : StateSet) : Prop :=
  ∀ start : Search, start.seen = ids → start.Begins →
    ∀ taken s, Takes next start taken s →
      taken.length ≤ result.size
        ∧ (∃ more last, Takes next s more last ∧ last.frontier = [])
        ∧ (s.frontier = [] → s.seen = result ∧ taken.Perm result.toList)

/-- **Any search along some edges finds what they lead to.** -/
theorem Indexes.finds (hnext : Indexes next edges) (ids : StateSet) :
    Finds next ids (saturate ids edges).seen := by
  intro start hstart hbegins taken s htakes
  subst hstart
  have hinv : Inv next edges start taken s := htakes.inv hnext hbegins.inv
  refine ⟨?_, hinv.exists_finished hnext, ?_⟩
  · exact Nat.le_trans (Nat.le_add_right ..) hinv.length_le
  · intro hend
    have hseen := hinv.seen_eq hend hnext
    exact ⟨hseen, hseen ▸ hinv.perm_taken hend⟩

/-- The rows of a table index its edges, and so those whose symbols satisfy a test. -/
theorem indexes_rows (t : Table) (p : SymbolSet → Bool) :
    Indexes (fun o => Table.rowEdges o (fun _ symbols => p symbols) (t.row o))
      (t.edgesWhere p) := by
  intro o e
  rw [Table.mem_rowEdges, Table.mem_edgesWhere, and_comm]
  refine and_congr_left fun ho => ?_
  rw [ho]
  rfl

end Search

end FiniteAutomata
