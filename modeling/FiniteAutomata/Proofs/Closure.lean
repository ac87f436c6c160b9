/-
  FiniteAutomata.Proofs.Closure
  ─────────────────────────────
  **THE CLOSURE IS THE LEAST CLOSED SET, AND ITS RECORD IS EXACT.**

  The closure of some ids is what edges without input lead to from them.  Any search
  that reads such edges off the rows of the table ends with it: whichever id it takes
  next, in whichever order it goes through a row, and whether or not it keeps a record
  of the edges that it follows.

      nodup_edgesWhere        no edge is listed twice
      indexes_silentEdges     the rows of a table index its edges without input
      nodup_followed          no edge is followed twice

  Main statement: `Table.closure_least_exact`, for all tables and ids.
-/
import FiniteAutomata.Graph.Search
import FiniteAutomata.Proofs.Path

namespace FiniteAutomata

/-! ## §1. Each edge once. -/

namespace Table

/-- The edges of a row ascend as its targets do. -/
theorem pairwise_rowEdges (o : StateId) (p : StateId → SymbolSet → Bool) (r : Row) :
    (rowEdges o p r).Pairwise (· < ·) := by
  unfold rowEdges
  refine List.pairwise_filterMap.2 (r.ascending.imp ?_)
  intro x y hxy d hd e he
  obtain ⟨_, hd⟩ := Option.ite_none_right_eq_some.1 hd
  obtain ⟨_, he⟩ := Option.ite_none_right_eq_some.1 he
  cases hd
  cases he
  exact Or.inr ⟨rfl, hxy⟩

theorem nodup_rowEdges (o : StateId) (p : StateId → SymbolSet → Bool) (r : Row) :
    (rowEdges o p r).Nodup :=
  (pairwise_rowEdges o p r).imp KeyOrder.ne_of_lt

/-- **No edge is listed twice**: those of different rows have different origins. -/
theorem nodup_edgesWhere (t : Table) (p : SymbolSet → Bool) : (t.edgesWhere p).Nodup := by
  unfold edgesWhere
  refine List.nodup_flatMap.2 ⟨fun r _ => nodup_rowEdges r.1 _ r.2, t.ascending.imp ?_⟩
  intro r r' hrr' e he he'
  have ho : e.origin = r.1 := (mem_rowEdges.1 he).1
  have ho' : e.origin = r'.1 := (mem_rowEdges.1 he').1
  exact KeyOrder.ne_of_lt hrr' (ho.symm.trans ho')

/-- The edges of one origin that consume no input; an id without a row has none. -/
def silentEdges (t : Table) (o : StateId) : List Edge :=
  rowEdges o (fun _ symbols => symbols.hasEmpty) (t.row o)

theorem mem_emptyEdges_iff_carries {t : Table} {e : Edge} :
    e ∈ t.emptyEdges ↔ t.Carries e.origin e.target .empty :=
  mem_emptyEdges

/-- **The rows of a table index its edges without input.** -/
theorem indexes_silentEdges (t : Table) : Search.Indexes t.silentEdges t.emptyEdges :=
  Search.indexes_rows t SymbolSet.hasEmpty

end Table

/-- **No edge is followed twice** if none is listed twice: those followed in one round are
used up in the next. -/
theorem nodup_followed {seen : StateSet} {edges : List Edge} (h : edges.Nodup) :
    (saturate seen edges).followed.Nodup := by
  fun_induction saturate seen edges with
  | case1 => exact List.nodup_nil
  | case2 seen edges hlive ih =>
      refine List.nodup_append.2 ⟨h.filter _, ih (h.filter _), ?_⟩
      intro d hd e he hde
      subst hde
      exact (mem_idleEdges.1 (mem_followed.1 he).1).2 (mem_liveEdges.1 hd).2

/-! ## §2. The closure. -/

namespace Table

variable {t : Table} {ids : StateSet}

/-- What holds of some ids holds of those too that edges without input lead to. -/
def SilentlyClosed (t : Table) (P : StateId → Prop) : Prop :=
  ∀ o q, P o → t.Carries o q .empty → P q

theorem silentlyClosed_closure : t.SilentlyClosed (· ∈ (t.closure ids).seen) :=
  fun o q ho h => saturate_closed (e := ⟨o, q⟩) (mem_emptyEdges_iff_carries.2 h) ho

/-- What is closed and holds of the ids holds of the whole closure. -/
theorem closure_induction {P : StateId → Prop} (hids : ∀ s ∈ ids, P s)
    (hclosed : t.SilentlyClosed P) : ∀ s ∈ (t.closure ids).seen, P s := by
  intro s hs
  obtain ⟨r, hr, hl⟩ := mem_saturate.1 hs
  clear hs
  induction hl with
  | refl => exact hids r hr
  | tail e _ he heq ih =>
      subst heq
      exact hclosed _ _ ih (mem_emptyEdges_iff_carries.1 he)

theorem mem_followed_closure {e : Edge} :
    e ∈ (t.closure ids).followed
      ↔ e.origin ∈ (t.closure ids).seen ∧ t.Carries e.origin e.target .empty := by
  rw [and_comm, ← mem_emptyEdges_iff_carries]
  exact mem_followed

theorem nodup_followed_closure : (t.closure ids).followed.Nodup :=
  nodup_followed (nodup_edgesWhere t _)

/-- **The closure is the least closed set, and its record is exact.**  For any table and
any ids: the closure has the ids and is closed, and whatever has the ids and is closed
includes it.  The edges followed are the edges without input whose origin is in it, each
once.

A search that starts from the ids, in any order and with any record or none, takes at
most as many ids as the closure has; it can always be brought to its end; and at its end
it has seen the closure, has taken each id of it once, and has added to its record, if it
keeps one, exactly the edges followed. -/
theorem closure_least_exact (t : Table) (ids : List StateId) :
    let result := t.closure (OrderedSet.ofList ids)
    ((∀ s ∈ ids, s ∈ result.seen) ∧ t.SilentlyClosed (· ∈ result.seen)
        ∧ ∀ P : StateId → Prop, (∀ s ∈ ids, P s) → t.SilentlyClosed P →
            ∀ s ∈ result.seen, P s)
      ∧ (result.followed.Nodup
        ∧ ∀ e, e ∈ result.followed
            ↔ e.origin ∈ result.seen ∧ t.Carries e.origin e.target .empty)
      ∧ ∀ start : Search, start.seen = OrderedSet.ofList ids → start.Begins →
          ∀ taken s, Search.Takes t.silentEdges start taken s →
            taken.length ≤ result.seen.size
              ∧ (∃ more last, Search.Takes t.silentEdges s more last ∧ last.frontier = [])
              ∧ (s.frontier = [] → s.seen = result.seen ∧ taken.Perm result.seen.toList
                  ∧ ∃ l, l.Perm result.followed ∧ s.record = start.record.map (· ++ l)) := by
  intro result
  refine ⟨⟨?_, silentlyClosed_closure, ?_⟩,
    ⟨nodup_followed_closure, fun e => mem_followed_closure⟩, ?_⟩
  · exact fun s hs => subset_saturate (OrderedSet.mem_ofList.2 hs)
  · intro P hids hclosed
    exact closure_induction (fun s hs => hids s (OrderedSet.mem_ofList.1 hs)) hclosed
  · intro start hstart hbegins taken s htakes
    have hresult : saturate start.seen t.emptyEdges = result := by
      rw [hstart]
      rfl
    have hnext := indexes_silentEdges t
    have hinv : Search.Inv t.silentEdges t.emptyEdges start taken s :=
      htakes.inv hnext hbegins.inv
    refine ⟨?_, hinv.exists_finished hnext, ?_⟩
    · rw [← hresult]
      exact Nat.le_trans (Nat.le_add_right ..) hinv.length_le
    · intro hend
      have hseen := hinv.seen_eq hend hnext
      have hrecord := hinv.record_eq hend hnext (fun _ => nodup_rowEdges _ _ _)
        (hresult ▸ nodup_followed_closure)
      rw [hresult] at hseen hrecord
      exact ⟨hseen, hseen ▸ hinv.perm_taken hend, hrecord⟩

/-- Two ids that lead to each other. -/
def cycle : Table :=
  .ofList [(1, .ofList [(2, .onlyEmpty)]), (2, .ofList [(1, .onlyEmpty)])]

/-- On a cycle a search ends too, after it has taken each id once.  An edge recorded
before stays in front. -/
theorem closure_least_exact_cycle :
    let start : Search := ⟨OrderedSet.ofList [2], [2], some [⟨7, 8⟩]⟩
    start.Begins
      ∧ ∃ s, Search.Takes cycle.silentEdges start [2, 1] s ∧ s.frontier = []
        ∧ s.seen = (cycle.closure (OrderedSet.ofList [2])).seen
        ∧ s.record = some [⟨7, 8⟩, ⟨2, 1⟩, ⟨1, 2⟩] := by
  intro start
  have hbegins : start.Begins := .refl _
  have htwo : cycle.silentEdges 2 = [⟨2, 1⟩] := by decide +kernel
  have hone : cycle.silentEdges 1 = [⟨1, 2⟩] := by decide +kernel
  let middle := Search.followAll { start with frontier := [] } [⟨2, 1⟩]
  let last := Search.followAll { middle with frontier := [] } [⟨1, 2⟩]
  have hfirst : Search.Expands cycle.silentEdges start 2 middle :=
    ⟨[], [⟨2, 1⟩], .refl _, .of_eq htwo.symm, rfl⟩
  have hsecond : Search.Expands cycle.silentEdges middle 1 last :=
    ⟨[], [⟨1, 2⟩], .refl [1], .of_eq hone.symm, rfl⟩
  have htakes : Search.Takes cycle.silentEdges start [2, 1] last :=
    .cons hfirst (.cons hsecond (.nil last))
  obtain ⟨_, _, hsearch⟩ := closure_least_exact cycle [2]
  obtain ⟨_, _, hends⟩ := hsearch start rfl hbegins [2, 1] last htakes
  exact ⟨hbegins, last, htakes, rfl, (hends rfl).1, rfl⟩

end Table

end FiniteAutomata
