/-
  FiniteAutomata.Proofs.Allocation
  ────────────────────────────────
  **NO ID IS HANDED OUT TWICE IN A LINEAGE.**

  Versions of one lineage may go apart, and states may be removed; still no new
  state has the id of another.  All versions draw on the supply of the lineage,
  which lies beyond all their states, and an edit that adds a state takes the
  next id:

      Automaton.SuppliedBy.edit_draws       one edit
      Workspace.Sound.serve_draws           one request
      Workspace.Sound.nodup_allNewStates    all requests
      Session.newStates_addStatesIn         what is answered in an editor

  Main statement: whatever a caller does, new ids are unused, are handed out once,
  and are taken for the states that are added and for nothing else
  (`Session.ids_never_reused`).
-/
import FiniteAutomata.Proofs.Requests

namespace FiniteAutomata

/-! ## §1. New states of an edit. -/

namespace Automaton

variable {a b : Automaton} {supply : IdSupply} {d : Edited}

/-- The states that one automaton has beyond those of another. -/
def statesBeyond (b a : Automaton) : List StateId := (b.states \ a.states).toList

theorem statesBeyond_eq_nil (h : ∀ s ∈ b.states, s ∈ a.states) : b.statesBeyond a = [] := by
  have hempty : b.states \ a.states = ∅ := by
    apply OrderedSet.ext
    intro s
    refine iff_of_false ?_ (OrderedSet.not_mem_empty s)
    exact fun hs => (OrderedSet.mem_sdiff.1 hs).2 (h s (OrderedSet.mem_sdiff.1 hs).1)
  exact congrArg OrderedSet.toList hempty

theorem statesBeyond_eq_singleton {s : StateId} (hs : s ∉ a.states)
    (h : ∀ q, q ∈ b.states ↔ q = s ∨ q ∈ a.states) : b.statesBeyond a = [s] := by
  have hsingle : b.states \ a.states = .singleton s := by
    apply OrderedSet.ext
    intro q
    rw [OrderedSet.mem_sdiff, OrderedSet.mem_singleton, h]
    constructor
    · rintro ⟨hq | hq, hnot⟩
      · exact hq
      · exact absurd hq hnot
    · rintro rfl
      exact ⟨Or.inl rfl, hs⟩
  exact congrArg OrderedSet.toList hsingle

/-- `Draws a supply d`: what is added by an edit is what is taken from the supply,
one state with the next id or nothing. -/
inductive Draws (a : Automaton) (supply : IdSupply) (d : Edited) : Prop where
  | nothing : (d.automaton.getD a).statesBeyond a = [] → d.supply = supply → Draws a supply d
  | next : (d.automaton.getD a).statesBeyond a = [supply.next] →
      d.supply = supply.allocate.2 → Draws a supply d

namespace SuppliedBy

theorem addState_draws (h : a.SuppliedBy supply) {name : Json}
    (he : a.edit supply (.addState name) = .ok d) :
    d.added = some supply.next ∧ (d.automaton.getD a).statesBeyond a = [supply.next]
      ∧ d.supply = supply.allocate.2 := by
  cases he
  exact ⟨rfl, statesBeyond_eq_singleton h.next_not_mem fun _ => mem_states_addState, rfl⟩

/-- Completion adds a state for rejection, if it adds one. -/
theorem complete_draws (h : a.SuppliedBy supply) (he : a.edit supply .complete = .ok d) :
    d.added = none
      ∧ ((d.automaton.getD a).statesBeyond a = [] ∧ d.supply = supply
        ∨ (d.automaton.getD a).statesBeyond a = [supply.next] ∧ d.supply = supply.allocate.2
          ∧ (d.automaton.getD a).names.get? supply.next = some rejectStateName) := by
  have hd : d = ⟨(a.complete? supply).1, none, (a.complete? supply).2⟩ :=
    (Except.ok.inj he).symm
  subst hd
  refine ⟨rfl, ?_⟩
  obtain hc | ⟨sink, _, _, hc⟩ | hc := complete?_cases a supply
  · rw [hc]
    exact Or.inl ⟨statesBeyond_eq_nil fun _ hs => hs, rfl⟩
  · rw [hc]
    refine Or.inl ⟨statesBeyond_eq_nil fun s hs => ?_, rfl⟩
    exact states_routeAll a sink _ ▸ hs
  · rw [hc]
    refine Or.inr ⟨statesBeyond_eq_singleton h.next_not_mem fun q => ?_, rfl, ?_⟩
    · rw [Option.getD_some, states_routeAll]
      exact mem_states_addState
    · -- Routing leaves the names as they are.
      obtain ⟨table, hrouted⟩ := routeAll_eq (a.addState supply.next rejectStateName)
        supply.next (a.lacking a.effectiveAlphabet ++ [(supply.next, a.effectiveAlphabet)])
      rw [Option.getD_some, hrouted]
      exact OrderedMap.get?_insert_self _ _ _

/-- No other edit adds a state. -/
theorem other_draws (h : a.SuppliedBy supply) {e : Edit} (he : a.edit supply e = .ok d)
    (hadd : ∀ name, e ≠ .addState name) (hcomp : e ≠ .complete) :
    (d.automaton.getD a).statesBeyond a = [] ∧ d.supply = supply := by
  obtain ⟨hsupply, hb⟩ := h.wellFormed.edit he hadd hcomp
  refine ⟨statesBeyond_eq_nil ?_, hsupply⟩
  cases hd : d.automaton with
  | none => exact fun _ hs => hs
  | some b => exact (hb b hd).2

/-- **One edit.** -/
theorem edit_draws (h : a.SuppliedBy supply) {e : Edit} (he : a.edit supply e = .ok d) :
    a.Draws supply d := by
  cases e with
  | addState name =>
      obtain ⟨_, hnew, hsupply⟩ := h.addState_draws he
      exact .next hnew hsupply
  | complete =>
      obtain ⟨_, ⟨hnew, hsupply⟩ | ⟨hnew, hsupply, _⟩⟩ := h.complete_draws he
      · exact .nothing hnew hsupply
      · exact .next hnew hsupply
  | _ =>
      obtain ⟨hnew, hsupply⟩ := h.other_draws he (fun _ => by simp) (by simp)
      exact .nothing hnew hsupply

end SuppliedBy

end Automaton

/-! ## §2. New states of a request. -/

/-- A state that was added to an automaton of a lineage. -/
structure NewState where
  lineage : LineageId
  id : StateId
  deriving DecidableEq

namespace Workspace

/-- The states that a request adds: those of the version that is answered beyond
those of the version that is edited. -/
def newStates (w : Workspace) (r : Request) : List NewState :=
  match r, (w.serve r).1 with
  | .perform v _, .performed u _ =>
      (((w.serve r).2.automaton u).statesBeyond (w.automaton v)).map
        fun s => ⟨(w.version v).lineage, s⟩
  | _, _ => []

/-- The states that requests add, in order. -/
def allNewStates (w : Workspace) : List Request → List NewState
  | [] => []
  | r :: rest => w.newStates r ++ (w.serve r).2.allNewStates rest

variable {w : Workspace} {v : VersionId} {x : Version}

/-- `Performs w v x e d u`: an edit of the version `v`, which is `x`, is performed
as it is on the automaton by itself, and answers the version `u`. -/
structure Performs (w : Workspace) (v : VersionId) (x : Version) (e : Edit) (d : Edited)
    (u : VersionId) : Prop where
  response_eq : (w.serve (.perform v e)).1 = .performed u d.added
  version_eq : (w.serve (.perform v e)).2.forget.versions[u]?
    = some ⟨d.automaton.getD x.content.automaton, x.lineage⟩
  supplies_eq : (w.serve (.perform v e)).2.supplies
    = w.supplies.modify x.lineage fun _ => d.supply

/-- An edit is performed, or it fails and takes nothing. -/
theorem Sound.serve_perform_cases (h : w.Sound) (hx : w.versions[v]? = some x) (e : Edit) :
    (∃ err, x.content.automaton.edit (w.supply x.lineage) e = .error err
        ∧ (w.serve (.perform v e)).1 = .failed err
        ∧ (w.serve (.perform v e)).2.supplies = w.supplies)
      ∨ ∃ d u, x.content.automaton.edit (w.supply x.lineage) e = .ok d
          ∧ w.Performs v x e d u := by
  -- Memories do not matter, so the plain workspace tells what is done.
  obtain ⟨hresponse, hforget, _⟩ := serve_forget h (.perform v e)
  have hplain : w.forget.serve (.perform v e) = w.forget.servePerform v x.forget e := by
    simp only [PlainWorkspace.serve, getElem?_forget, hx, Option.map_some]
  rw [hplain] at hresponse hforget
  have hsupplies : (w.serve (.perform v e)).2.supplies
      = (w.forget.servePerform v x.forget e).2.supplies := congrArg (·.supplies) hforget
  have hversions : (w.serve (.perform v e)).2.forget.versions
      = (w.forget.servePerform v x.forget e).2.versions := congrArg (·.versions) hforget
  unfold PlainWorkspace.servePerform at hresponse hsupplies hversions
  rw [show x.forget.automaton.edit (w.forget.supplies.getD x.forget.lineage default) e
    = x.content.automaton.edit (w.supply x.lineage) e from rfl] at hresponse hsupplies hversions
  cases hedit : x.content.automaton.edit (w.supply x.lineage) e with
  | error err =>
      rw [hedit] at hresponse hsupplies
      exact Or.inl ⟨err, rfl, hresponse, hsupplies⟩
  | ok d =>
      obtain ⟨result, added, supply⟩ := d
      rw [hedit] at hresponse hsupplies hversions
      cases result with
      | none =>
          refine Or.inr ⟨_, v, rfl, hresponse, ?_, hsupplies⟩
          rw [hversions, getElem?_forget, hx]
          rfl
      | some b =>
          refine Or.inr ⟨_, _, rfl, hresponse, ?_, hsupplies⟩
          rw [hversions]
          exact Array.getElem?_push_size

namespace Performs

variable {e : Edit} {d : Edited} {u : VersionId}

theorem forget_version (h : w.Performs v x e d u) :
    ((w.serve (.perform v e)).2.version u).forget
      = ⟨d.automaton.getD x.content.automaton, x.lineage⟩ := by
  have hu := h.version_eq
  rw [getElem?_forget] at hu
  obtain ⟨y, hy, hforget⟩ := Option.map_eq_some_iff.1 hu
  rw [Workspace.version_eq hy, hforget]

theorem automaton_eq (h : w.Performs v x e d u) :
    (w.serve (.perform v e)).2.automaton u = d.automaton.getD x.content.automaton :=
  congrArg (·.automaton) h.forget_version

/-- What is answered is a version of the same lineage. -/
theorem lineage_eq (h : w.Performs v x e d u) :
    ((w.serve (.perform v e)).2.version u).lineage = x.lineage :=
  congrArg (·.lineage) h.forget_version

theorem newStates_eq (h : w.Performs v x e d u) (hx : w.versions[v]? = some x) :
    w.newStates (.perform v e)
      = ((d.automaton.getD x.content.automaton).statesBeyond x.content.automaton).map
          fun s => ⟨x.lineage, s⟩ := by
  have hsource : w.automaton v = x.content.automaton := by
    unfold automaton
    rw [Workspace.version_eq hx]
  simp only [newStates, h.response_eq, h.automaton_eq, hsource, Workspace.version_eq hx]

theorem supply_eq (h : w.Performs v x e d u) {l : LineageId} (hl : l < w.supplies.size) :
    (w.serve (.perform v e)).2.supply l = if x.lineage = l then d.supply else w.supply l := by
  have hsupplies : (w.serve (.perform v e)).2.supplies
      = (w.replenish x.lineage d.supply).supplies := h.supplies_eq
  unfold supply
  rw [hsupplies]
  exact getD_supplies_replenish hl d.supply

end Performs

/-! ## §3. One request. -/

/-- `Draws w r`: what a request adds is what it takes from the supplies that are
there, one state with the next id of a lineage or nothing. -/
inductive Draws (w : Workspace) (r : Request) : Prop where
  | nothing : w.newStates r = [] →
      (∀ l < w.supplies.size, (w.serve r).2.supply l = w.supply l) → Draws w r
  | next (lineage : LineageId) : lineage < w.supplies.size →
      w.newStates r = [⟨lineage, (w.supply lineage).next⟩] →
      (∀ l < w.supplies.size, (w.serve r).2.supply l
        = if lineage = l then (w.supply lineage).allocate.2 else w.supply l) → Draws w r

theorem Sound.perform_draws (h : w.Sound) (hx : w.versions[v]? = some x) (e : Edit) :
    w.Draws (.perform v e) := by
  have hversion := h v x hx
  obtain ⟨err, _, hresponse, hsupplies⟩ | ⟨d, u, hedit, hd⟩ := h.serve_perform_cases hx e
  · refine .nothing ?_ ?_
    · simp only [newStates, hresponse]
    · intro l _
      unfold supply
      rw [hsupplies]
  · cases hversion.inLineage.suppliedBy.edit_draws hedit with
    | nothing hnew hsupply =>
        refine .nothing ?_ ?_
        · rw [hd.newStates_eq hx, hnew]
          rfl
        · intro l hl
          rw [hd.supply_eq hl, hsupply]
          by_cases hxl : x.lineage = l
          · rw [if_pos hxl, hxl]
            rfl
          · rw [if_neg hxl]
    | next hnew hsupply =>
        refine .next x.lineage hversion.lineage_lt ?_ ?_
        · rw [hd.newStates_eq hx, hnew]
          rfl
        · intro l hl
          rw [hd.supply_eq hl, hsupply]
          rfl

theorem supply_create {a : Automaton} {l : LineageId} (hl : l < w.supplies.size) :
    (w.create a).2.supply l = w.supply l := by
  show (w.supplies.push a.freshSupply).getD l default = w.supplies.getD l default
  rw [Array.getD_eq_getD_getElem?, Array.getElem?_push_lt hl, Array.getD_eq_getD_getElem?,
    Array.getElem?_eq_getElem hl]

/-- **One request.** -/
theorem Sound.serve_draws (h : w.Sound) (r : Request) : w.Draws r := by
  cases r with
  | create o =>
      refine .nothing rfl fun l hl => ?_
      simp only [serve]
      cases o.automaton with
      | error err => rfl
      | ok a => exact supply_create hl
  | ask v q =>
      refine .nothing rfl fun l hl => ?_
      simp only [serve]
      cases w.versions[v]? <;> rfl
  | perform v e =>
      cases hx : w.versions[v]? with
      | some x => exact h.perform_draws hx e
      | none =>
          have hserve : w.serve (.perform v e) = (.noVersion, w) := by simp only [serve, hx]
          refine .nothing ?_ fun l _ => ?_
          · simp only [newStates, hserve]
          · rw [hserve]

/-- Requests lose no supply. -/
theorem Sound.size_supplies_le_serve (h : w.Sound) (r : Request) :
    w.supplies.size ≤ (w.serve r).2.supplies.size := by
  cases r with
  | create o =>
      simp only [serve]
      cases o.automaton with
      | error err => exact Nat.le_refl _
      | ok a =>
          show w.supplies.size ≤ (w.supplies.push _).size
          rw [Array.size_push]
          exact Nat.le_succ _
  | ask v q =>
      simp only [serve]
      cases w.versions[v]? <;> exact Nat.le_refl _
  | perform v e =>
      cases hx : w.versions[v]? with
      | none =>
          simp only [serve, hx]
          exact Nat.le_refl _
      | some x =>
          obtain ⟨_, _, _, hsupplies⟩ | ⟨d, u, _, hd⟩ := h.serve_perform_cases hx e
          · exact Nat.le_of_eq (congrArg Array.size hsupplies).symm
          · have hsize : (w.serve (.perform v e)).2.supplies.size = w.supplies.size :=
              (congrArg Array.size hd.supplies_eq).trans Array.size_modify
            exact Nat.le_of_eq hsize.symm

/-- A new state has an id that no version of its lineage has. -/
theorem Sound.not_mem_of_newStates (h : w.Sound) {r : Request} {n : NewState}
    (hn : n ∈ w.newStates r) {y : Version} (hy : y ∈ w.versions)
    (hlineage : y.lineage = n.lineage) : n.id ∉ y.content.automaton.states := by
  obtain ⟨u, hu⟩ := Array.mem_iff_getElem?.1 hy
  cases h.serve_draws r with
  | nothing hnew _ => exact absurd (hnew ▸ hn) List.not_mem_nil
  | next lineage _ hnew _ =>
      rw [hnew, List.mem_singleton] at hn
      subst hn
      subst hlineage
      exact (h u y hu).inLineage.suppliedBy.next_not_mem

/-- A supply moves on by one for each new state of its lineage. -/
theorem Sound.next_serve (h : w.Sound) (r : Request) {l : LineageId} (hl : l < w.supplies.size) :
    ((w.serve r).2.supply l).next
      = (w.supply l).next + (w.newStates r).countP (·.lineage = l) := by
  cases h.serve_draws r with
  | nothing hnew hsupply =>
      rw [hnew, hsupply l hl]
      exact (Int.add_zero _).symm
  | next lineage _ hnew hsupply =>
      rw [hnew, hsupply l hl, List.countP_singleton]
      by_cases hm : lineage = l
      · subst hm
        simp [IdSupply.allocate]
      · simp [hm]

/-- The id that is answered is that of the one new state, and the version that is
answered is one of the same lineage. -/
theorem Sound.serve_addState (h : w.Sound) (hx : w.versions[v]? = some x) (name : Json) :
    ∃ u id, (w.serve (.perform v (.addState name))).1 = .performed u (some id)
      ∧ w.newStates (.perform v (.addState name)) = [⟨x.lineage, id⟩]
      ∧ ((w.serve (.perform v (.addState name))).2.version u).lineage = x.lineage := by
  obtain ⟨_, hfail, _⟩ | ⟨d, u, hedit, hd⟩ := h.serve_perform_cases hx (.addState name)
  · cases hfail
  · obtain ⟨hadded, hnew, _⟩ := (h v x hx).inLineage.suppliedBy.addState_draws hedit
    refine ⟨u, _, hd.response_eq.trans (congrArg _ hadded), ?_, hd.lineage_eq⟩
    rw [hd.newStates_eq hx, hnew]
    rfl

theorem Sound.serve_complete (h : w.Sound) (hx : w.versions[v]? = some x) :
    ∃ u, (w.serve (.perform v .complete)).1 = .performed u none
      ∧ (w.newStates (.perform v .complete) = []
        ∨ ∃ id, w.newStates (.perform v .complete) = [⟨x.lineage, id⟩]
          ∧ ((w.serve (.perform v .complete)).2.automaton u).names.get? id
            = some rejectStateName) := by
  obtain ⟨_, hfail, _⟩ | ⟨d, u, hedit, hd⟩ := h.serve_perform_cases hx .complete
  · cases hfail
  · obtain ⟨hadded, hcomp⟩ := (h v x hx).inLineage.suppliedBy.complete_draws hedit
    refine ⟨u, hd.response_eq.trans (congrArg _ hadded), ?_⟩
    rw [hd.newStates_eq hx, hd.automaton_eq]
    obtain ⟨hnew, _⟩ | ⟨hnew, _, hname⟩ := hcomp
    · rw [hnew]
      exact Or.inl rfl
    · rw [hnew]
      exact Or.inr ⟨_, rfl, hname⟩

theorem Sound.newStates_other (h : w.Sound) {e : Edit} (hadd : ∀ name, e ≠ .addState name)
    (hcomp : e ≠ .complete) (v : VersionId) : w.newStates (.perform v e) = [] := by
  cases hx : w.versions[v]? with
  | none => simp only [newStates, serve, hx]
  | some x =>
      obtain ⟨_, _, hresponse, _⟩ | ⟨d, u, hedit, hd⟩ := h.serve_perform_cases hx e
      · simp only [newStates, hresponse]
      · have hnew := (h v x hx).inLineage.suppliedBy.other_draws hedit hadd hcomp
        rw [hd.newStates_eq hx, hnew.1]
        rfl

/-- `HandsOut w r`: how a request treats the ids of the lineages. -/
structure HandsOut (w : Workspace) (r : Request) : Prop where
  /-- A new state has an id that no version of its lineage has. -/
  unused : ∀ n ∈ w.newStates r, ∀ y ∈ w.versions, y.lineage = n.lineage →
    n.id ∉ y.content.automaton.states
  /-- A supply moves on by one for each new state of its lineage. -/
  next_eq : ∀ l < w.supplies.size, ((w.serve r).2.supply l).next
    = (w.supply l).next + (w.newStates r).countP (·.lineage = l)
  /-- The id that is answered is that of the one new state. -/
  addState : ∀ v x name, r = .perform v (.addState name) → w.versions[v]? = some x →
    ∃ u id, (w.serve r).1 = .performed u (some id) ∧ w.newStates r = [⟨x.lineage, id⟩]
  /-- Completion adds nothing or a state for rejection. -/
  complete : ∀ v x, r = .perform v .complete → w.versions[v]? = some x →
    ∃ u, (w.serve r).1 = .performed u none
      ∧ (w.newStates r = [] ∨ ∃ id, w.newStates r = [⟨x.lineage, id⟩]
        ∧ ((w.serve r).2.automaton u).names.get? id = some rejectStateName)
  /-- Nothing else adds a state. -/
  other : (∀ v name, r ≠ .perform v (.addState name)) → (∀ v, r ≠ .perform v .complete) →
    w.newStates r = []

theorem Sound.handsOut (h : w.Sound) (r : Request) : w.HandsOut r where
  unused _ hn _ hy hlineage := h.not_mem_of_newStates hn hy hlineage
  next_eq _ hl := h.next_serve r hl
  addState v x name hr hx := by
    obtain ⟨u, id, hresponse, hnew, _⟩ := h.serve_addState hx name
    subst hr
    exact ⟨u, id, hresponse, hnew⟩
  complete v x hr hx := hr ▸ h.serve_complete hx
  other hadd hcomp := by
    cases r with
    | create o => rfl
    | ask v q => rfl
    | perform v e =>
        exact h.newStates_other (fun name he => hadd v name (congrArg _ he))
          (fun he => hcomp v (congrArg _ he)) v

/-! ## §4. All requests. -/

/-- States that are added to a lineage have ids that it has left. -/
theorem Sound.next_le_of_mem_allNewStates (h : w.Sound) {requests : List Request} {n : NewState}
    (hn : n ∈ w.allNewStates requests) (hl : n.lineage < w.supplies.size) :
    (w.supply n.lineage).next ≤ n.id := by
  induction requests generalizing w with
  | nil => exact absurd hn List.not_mem_nil
  | cons r rest ih =>
      have hsound := (serve_forget h r).2.2
      have hlater : n ∈ (w.serve r).2.allNewStates rest →
          ((w.serve r).2.supply n.lineage).next ≤ n.id :=
        fun hn => ih hsound hn (Nat.lt_of_lt_of_le hl (h.size_supplies_le_serve r))
      obtain hn | hn := List.mem_append.1 hn
      · cases h.serve_draws r with
        | nothing hnew _ => exact absurd (hnew ▸ hn) List.not_mem_nil
        | next lineage _ hnew _ =>
            rw [hnew, List.mem_singleton] at hn
            exact hn ▸ Int.le_refl _
      · have hle := hlater hn
        cases h.serve_draws r with
        | nothing _ hsupply => exact hsupply _ hl ▸ hle
        | next lineage _ _ hsupply =>
            rw [hsupply _ hl] at hle
            by_cases hne : lineage = n.lineage
            · rw [if_pos hne, hne] at hle
              exact Int.le_trans (Int.le_of_lt (Int.lt_add_one_of_le (Int.le_refl _))) hle
            · rwa [if_neg hne] at hle

/-- **All requests.**  No state is added twice. -/
theorem Sound.nodup_allNewStates (h : w.Sound) (requests : List Request) :
    (w.allNewStates requests).Nodup := by
  induction requests generalizing w with
  | nil => exact List.nodup_nil
  | cons r rest ih =>
      have hsound := (serve_forget h r).2.2
      cases h.serve_draws r with
      | nothing hnew _ =>
          rw [allNewStates, hnew]
          exact ih hsound
      | next lineage hlt hnew hsupply =>
          rw [allNewStates, hnew]
          refine List.nodup_cons.2 ⟨fun hlater => ?_, ih hsound⟩
          -- What is added later lies beyond the id that is taken now.
          have hle := hsound.next_le_of_mem_allNewStates hlater
            (Nat.lt_of_lt_of_le hlt (h.size_supplies_le_serve r))
          rw [hsupply _ hlt, if_pos rfl] at hle
          exact absurd (Int.lt_of_add_one_le hle) (Int.lt_irrefl _)

end Workspace

/-! ## §5. Editors. -/

/-- What an editor answers for the states that it adds is what they are. -/
theorem Editor.newStates_addStates {w : Workspace} {d : Editor} (h : w.Sound)
    (hd : d.current < w.versions.size) {names : List Json} {ids : List StateId} {d' : Editor}
    {w' : Workspace} (hadded : d.addStates w names = .ok (ids, d', w')) :
    w.allNewStates (w.requestsFor d.current (additions names))
      = ids.map fun s => ⟨(w.version d.current).lineage, s⟩ := by
  induction names generalizing w d ids with
  | nil =>
      cases hadded
      rfl
  | cons name rest ih =>
      obtain ⟨step, hstep, hadded⟩ := bind_eq_ok.1 hadded
      obtain ⟨done, hdone, hstep⟩ := bind_eq_ok.1 hstep
      cases hstep
      obtain ⟨⟨ids', d'', w''⟩, hrest, hadded⟩ := bind_eq_ok.1 hadded
      cases hadded
      have hx := Array.getElem?_eq_getElem hd
      have hserve : w.serve (.perform d.current (.addState name))
          = (.performed done.version done.added, done.workspace) := by
        rw [Workspace.serve_perform hd, Workspace.servePerform, hdone]
      have hrequests : w.requestsFor d.current (additions (name :: rest))
          = .perform d.current (.addState name)
            :: done.workspace.requestsFor done.version (additions rest) := by
        simp only [additions, List.map_cons, Workspace.requestsFor, hdone]
      obtain ⟨u, id, hresponse, hnew, hlineage⟩ := h.serve_addState hx name
      rw [hserve] at hresponse hlineage
      injection hresponse with hversion hid
      subst hversion
      -- The editor goes on with a version of the same lineage.
      have hc := h.perform hd hdone
      have hlater := ih (d := { d with current := done.version }) hc.sound hc.version_lt hrest
      rw [hrequests, Workspace.allNewStates, hnew, hserve, hlater, hid, Workspace.version_eq hx,
        hlineage]
      rfl

/-- The ids that a caller is answered for states added in an editor are theirs. -/
theorem Session.newStates_addStatesIn {s s' : Session} (h : s.Sound) {i : EditorId}
    (hi : i < s.editors.size) {names : List Json} {ids : List StateId}
    (hadded : s.addStatesIn i names = .ok (ids, s')) :
    s.workspace.allNewStates (s.requestsFor (.addStatesIn i names))
      = ids.map fun n => ⟨(s.workspace.version (s.editor i).current).lineage, n⟩ := by
  obtain ⟨⟨ids', d', w'⟩, hstates, hdone⟩ := bind_eq_ok.1 hadded
  cases hdone
  simp only [requestsFor, if_pos hi]
  exact Editor.newStates_addStates h.workspace (h.current_editor_lt hi) hstates

/-! ## §6. All calls. -/

namespace Session

/-- **No id is handed out twice.**  In any session, what calls do to the workspace
is what requests do, one by one; no state of a lineage is added twice; and each
request, in the workspace that the requests before it leave, hands out ids that
are not in use, takes one id for each state that it adds, adds the state that it
answers an id for, and adds none otherwise but a state for rejection. -/
theorem ids_never_reused (calls : List Call) :
    (empty.serveAll calls).workspace
        = (Workspace.empty.serveAll (empty.allRequests calls)).2
      ∧ (Workspace.empty.allNewStates (empty.allRequests calls)).Nodup
      ∧ ∀ before r after, empty.allRequests calls = before ++ r :: after →
          (Workspace.empty.serveAll before).2.HandsOut r := by
  refine ⟨workspace_serveAll sound_empty calls, Workspace.sound_empty.nodup_allNewStates _, ?_⟩
  intro before r after _
  exact (Workspace.serveAll_forget Workspace.sound_empty before).2.2.handsOut r

/-- States are added on two branches; the first is given up before a third is
added, and a fourth is added for rejection. -/
def branches : List Call :=
  [.request (.create .nothing), .request (.perform 0 (.addState .null)),
    .request (.perform 0 (.addState .null)),
    .performAll 1 [.edit (.removeState (.id 1)), .edit (.addState .null),
      .edit (.setAccept (.id 3) true), .edit (.setAlphabet (some (.symbols .letterA))),
      .edit .complete]]

/-- The id of the state that was given up does not come back, and the last request
takes the fourth. -/
theorem ids_never_reused_branches :
    Workspace.empty.allNewStates (empty.allRequests branches)
        = [⟨0, 1⟩, ⟨0, 2⟩, ⟨0, 3⟩, ⟨0, 4⟩]
      ∧ (Workspace.empty.allNewStates (empty.allRequests branches)).Nodup
      ∧ ∃ before, empty.allRequests branches = before ++ [.perform 6 .complete]
          ∧ (Workspace.empty.serveAll before).2.newStates (.perform 6 .complete) = [⟨0, 4⟩]
          ∧ (Workspace.empty.serveAll before).2.HandsOut (.perform 6 .complete) := by
  obtain ⟨_, hnodup, hrequests⟩ := ids_never_reused branches
  have hsplit : empty.allRequests branches
      = (empty.allRequests branches).take 7 ++ [.perform 6 .complete] :=
    (List.take_append_drop 7 _).symm
  exact ⟨by decide +kernel, hnodup, _, hsplit, by decide +kernel, hrequests _ _ _ hsplit⟩

end Session

end FiniteAutomata
