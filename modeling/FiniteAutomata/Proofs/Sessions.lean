/-
  FiniteAutomata.Proofs.Sessions
  ──────────────────────────────
  **MEMORY IS NOT OBSERVABLE.**

  A session is a sequence of requests to a workspace: create an automaton, ask a
  question about a version, perform an edit on a version.  It is compared with
  the same session in a *plain* workspace, which keeps automata and supplies but
  remembers no analysis.  Forgetting the memories turns the one into the other
  step by step, as long as three things hold of every version: its lineage has a
  supply, it is a member of its lineage, and its memory is sound.
-/
import FiniteAutomata.Proofs.Lineage
import FiniteAutomata.Proofs.Recall
import FiniteAutomata.Workspace.Basic

namespace FiniteAutomata

/-! ## §1. Requests. -/

/-- What is requested of a workspace. -/
inductive Request where
  | create (origin : Origin)
  | ask (version : VersionId) (question : Question)
  | perform (version : VersionId) (edit : Edit)

/-- The response to a request. -/
inductive Response where
  | created (version : VersionId)
  | notCreated (error : LoadError)
  | answered (answer : Answer)
  | performed (version : VersionId) (added : Option StateId)
  | failed (error : EditError)
  | noVersion

/-- The response to an edit, and the workspace after it. -/
def Workspace.servePerform (w : Workspace) (v : VersionId) (e : Edit) :
    Response × Workspace :=
  match w.perform v e with
  | .ok done => (.performed done.version done.added, done.workspace)
  | .error err => (.failed err, w)

/-- Serve a request. -/
def Workspace.serve (w : Workspace) : Request → Response × Workspace
  | .create o =>
      match o.automaton with
      | .ok a => (w.create a).map .created id
      | .error err => (.notCreated err, w)
  | .ask v q =>
      match w.versions[v]? with
      | some _ => (w.ask v q).map .answered id
      | none => (.noVersion, w)
  | .perform v e =>
      match w.versions[v]? with
      | some _ => w.servePerform v e
      | none => (.noVersion, w)

/-- Serve requests in order. -/
def Workspace.serveAll (w : Workspace) : List Request → List Response × Workspace
  | [] => ([], w)
  | r :: rest => ((w.serve r).2.serveAll rest).map ((w.serve r).1 :: ·) id

/-! ## §2. Workspaces without memory. -/

/-- An automaton in a plain workspace. -/
structure PlainVersion where
  automaton : Automaton
  lineage : LineageId

/-- The versions, by id, and the supplies of the lineages. -/
structure PlainWorkspace where
  versions : Array PlainVersion
  supplies : Array IdSupply

namespace PlainWorkspace

/-- The plain workspace without versions. -/
def empty : PlainWorkspace := ⟨#[], #[]⟩

/-- Perform an edit on a version by performing it on the automaton. -/
def servePerform (w : PlainWorkspace) (v : VersionId) (x : PlainVersion) (e : Edit) :
    Response × PlainWorkspace :=
  match x.automaton.edit (w.supplies.getD x.lineage default) e with
  | .ok ⟨some a, added, supply⟩ =>
      (.performed w.versions.size added,
        ⟨w.versions.push ⟨a, x.lineage⟩, w.supplies.modify x.lineage fun _ => supply⟩)
  | .ok ⟨none, added, supply⟩ =>
      (.performed v added, ⟨w.versions, w.supplies.modify x.lineage fun _ => supply⟩)
  | .error err => (.failed err, w)

/-- Serve a request: every question is answered by analysing the automaton. -/
def serve (w : PlainWorkspace) : Request → Response × PlainWorkspace
  | .create o =>
      match o.automaton with
      | .ok a =>
          (.created w.versions.size,
            ⟨w.versions.push ⟨a, w.supplies.size⟩, w.supplies.push a.freshSupply⟩)
      | .error err => (.notCreated err, w)
  | .ask v q =>
      match w.versions[v]? with
      | some x => (.answered (x.automaton.answer q), w)
      | none => (.noVersion, w)
  | .perform v e =>
      match w.versions[v]? with
      | some x => w.servePerform v x e
      | none => (.noVersion, w)

/-- Serve requests in order. -/
def serveAll (w : PlainWorkspace) : List Request → List Response × PlainWorkspace
  | [] => ([], w)
  | r :: rest => ((w.serve r).2.serveAll rest).map ((w.serve r).1 :: ·) id

end PlainWorkspace

/-! ## §3. Forgetting. -/

/-- A version without what is remembered of it. -/
def Version.forget (x : Version) : PlainVersion := ⟨x.content.automaton, x.lineage⟩

/-- Every version without what is remembered of it. -/
def Workspace.forget (w : Workspace) : PlainWorkspace :=
  ⟨w.versions.map Version.forget, w.supplies⟩

namespace Workspace

variable {w : Workspace} {v : VersionId} {x : Version}

theorem version_eq (h : w.versions[v]? = some x) : w.version v = x := by
  unfold version
  rw [Array.getD_eq_getD_getElem?, h]
  rfl

theorem getElem?_version (h : v < w.versions.size) : w.versions[v]? = some (w.version v) := by
  rw [version_eq (Array.getElem?_eq_getElem h)]
  exact Array.getElem?_eq_getElem h

theorem getElem?_remember (w : Workspace) (v u : VersionId) (y : Analysed) :
    (w.remember v y).versions[u]?
      = if v = u then w.versions[u]?.map ({ · with content := y }) else w.versions[u]? := by
  show (w.versions.modify v _)[u]? = _
  rw [Array.getElem?_modify]

theorem getElem?_forget (w : Workspace) (v : VersionId) :
    w.forget.versions[v]? = w.versions[v]?.map Version.forget :=
  Array.getElem?_map

theorem getD_supplies_forget (w : Workspace) (l : LineageId) :
    w.forget.supplies.getD l default = w.supply l := rfl

theorem forget_size (w : Workspace) : w.forget.versions.size = w.versions.size :=
  Array.size_map

/-- What is remembered of a version changes only memories. -/
theorem forget_remember (h : w.versions[v]? = some x) {y : Analysed}
    (hy : y.automaton = x.content.automaton) : (w.remember v y).forget = w.forget := by
  have hversions : (w.remember v y).forget.versions = w.forget.versions := by
    apply Array.ext_getElem?
    intro u
    rw [getElem?_forget, getElem?_forget, getElem?_remember]
    by_cases huv : v = u
    · rw [if_pos huv, ← huv, h]
      simp [Version.forget, hy]
    · rw [if_neg huv]
  exact congrArg (PlainWorkspace.mk · w.supplies) hversions

theorem forget_push (w : Workspace) (x : Version) :
    (w.push x).2.forget = ⟨w.forget.versions.push x.forget, w.supplies⟩ :=
  congrArg (PlainWorkspace.mk · w.supplies) Array.map_push

/-! ## §4. The invariant. -/

/-- A version is sound if its lineage has a supply, it is a member of its lineage,
and everything that is remembered of it is true. -/
structure SoundVersion (supplies : Array IdSupply) (x : Version) : Prop where
  lineage_lt : x.lineage < supplies.size
  inLineage : InLineage x.content.automaton (supplies.getD x.lineage default)
  content : x.content.Sound

/-- A workspace is sound if all its versions are. -/
def Sound (w : Workspace) : Prop :=
  ∀ (v : VersionId) (x : Version), w.versions[v]? = some x → SoundVersion w.supplies x

theorem sound_empty : empty.Sound := by
  intro v x hx
  rw [show empty.versions[v]? = none from Array.getElem?_empty] at hx
  cases hx

theorem Sound.push (h : w.Sound) (hx : SoundVersion w.supplies x) : (w.push x).2.Sound := by
  intro v y hy
  rw [show (w.push x).2.versions = w.versions.push x from rfl, Array.getElem?_push] at hy
  by_cases hv : v = w.versions.size
  · rw [if_pos hv] at hy
    cases hy
    exact hx
  · rw [if_neg hv] at hy
    exact h v y hy

theorem Sound.remember (h : w.Sound) (hx : w.versions[v]? = some x) {y : Analysed}
    (hy : y.automaton = x.content.automaton) (hsound : y.Sound) : (w.remember v y).Sound := by
  intro u z hz
  rw [getElem?_remember] at hz
  by_cases hvu : v = u
  · rw [if_pos hvu, ← hvu, hx] at hz
    cases hz
    have hold := h v x hx
    exact ⟨hold.lineage_lt, hy ▸ hold.inLineage, hsound⟩
  · rw [if_neg hvu] at hz
    exact h u z hz

theorem size_supplies_replenish (w : Workspace) (l : LineageId) (supply : IdSupply) :
    (w.replenish l supply).supplies.size = w.supplies.size :=
  Array.size_modify

theorem getD_supplies_replenish {l m : LineageId} (hm : m < w.supplies.size)
    (supply : IdSupply) : (w.replenish l supply).supplies.getD m default
      = if l = m then supply else w.supplies.getD m default := by
  show (w.supplies.modify l fun _ => supply).getD m default = _
  rw [Array.getD_eq_getD_getElem?, Array.getElem?_modify]
  by_cases hl : l = m
  · rw [if_pos hl, if_pos hl, Array.getElem?_eq_getElem hm]
    rfl
  · rw [if_neg hl, if_neg hl, ← Array.getD_eq_getD_getElem?]

/-- The members of a lineage stay members when ids are taken from its supply. -/
theorem SoundVersion.replenish (h : SoundVersion w.supplies x) {l : LineageId}
    {supply : IdSupply} (hle : (w.supply l).next ≤ supply.next) :
    SoundVersion (w.replenish l supply).supplies x := by
  refine ⟨(size_supplies_replenish w l supply).symm ▸ h.lineage_lt, ?_, h.content⟩
  rw [getD_supplies_replenish h.lineage_lt]
  -- Another lineage may be the one that ids are taken from.
  by_cases hl : l = x.lineage
  · rw [if_pos hl]
    subst hl
    exact h.inLineage.taken hle
  · rw [if_neg hl]
    exact h.inLineage

/-- What an edit derives is a version of the lineage that it draws on. -/
theorem SoundVersion.derived (h : SoundVersion w.supplies x) {y : Analysed}
    {supply : IdSupply} (hin : InLineage y.automaton supply) (hy : y.Sound) :
    SoundVersion (w.replenish x.lineage supply).supplies ⟨y, x.lineage⟩ := by
  refine ⟨(size_supplies_replenish w x.lineage supply).symm ▸ h.lineage_lt, ?_, hy⟩
  rw [getD_supplies_replenish h.lineage_lt, if_pos rfl]
  exact hin

theorem Sound.replenish (h : w.Sound) {l : LineageId} {supply : IdSupply}
    (hle : (w.supply l).next ≤ supply.next) : (w.replenish l supply).Sound :=
  fun v x hx => (h v x hx).replenish hle

theorem Sound.create (h : w.Sound) {o : Origin} {a : Automaton} (ha : o.automaton = .ok a) :
    (w.create a).2.Sound := by
  -- The supply comes first, then the version that draws on it.
  have hgrown : Sound { w with supplies := w.supplies.push a.freshSupply } := by
    intro v x hx
    have hold := h v x hx
    refine ⟨?_, ?_, hold.content⟩
    · rw [Array.size_push]
      exact Nat.lt_succ_of_lt hold.lineage_lt
    · -- The new supply comes behind those of the other lineages.
      have hin := hold.inLineage
      rw [Array.getD_eq_getD_getElem?, Array.getElem?_eq_getElem hold.lineage_lt] at hin
      rw [Array.getD_eq_getD_getElem?, Array.getElem?_push_lt hold.lineage_lt]
      exact hin
  refine hgrown.push ⟨?_, ?_, Memo.sound_blank a⟩
  · show w.supplies.size < (w.supplies.push a.freshSupply).size
    rw [Array.size_push]
    exact Nat.lt_succ_self _
  · show InLineage a ((w.supplies.push a.freshSupply).getD w.supplies.size default)
    rw [Array.getD_eq_getD_getElem?, Array.getElem?_push_size]
    exact .created ha

/-! ## §5. Requests are served without looking at memories. -/

theorem ask_forget (h : w.Sound) (hv : w.versions[v]? = some x) (q : Question) :
    (w.ask v q).1 = x.content.automaton.answer q
      ∧ (w.ask v q).2.forget = w.forget ∧ (w.ask v q).2.Sound := by
  have hr := Analysed.answer_recalls (h v x hv).content q
  unfold ask
  rw [version_eq hv]
  exact ⟨hr.value_eq, forget_remember hv hr.automaton_eq,
    h.remember hv hr.automaton_eq hr.sound⟩

/-- The workspace in which an edit leaves what it analysed and what it took. -/
theorem Sound.settle (h : w.Sound) (hv : w.versions[v]? = some x) {y : Analysed}
    (hy : y.automaton = x.content.automaton) (hsound : y.Sound) {supply : IdSupply}
    (hle : (w.supply x.lineage).next ≤ supply.next) :
    ((w.remember v y).replenish x.lineage supply).Sound
      ∧ ((w.remember v y).replenish x.lineage supply).forget
        = ⟨w.forget.versions, w.supplies.modify x.lineage fun _ => supply⟩ :=
  ⟨(h.remember hv hy hsound).replenish hle,
    congrArg (PlainWorkspace.mk ·.versions _) (forget_remember hv hy)⟩

theorem servePerform_forget (h : w.Sound) (hv : w.versions[v]? = some x) (e : Edit) :
    (w.servePerform v e).1 = (w.forget.servePerform v x.forget e).1
      ∧ (w.servePerform v e).2.forget = (w.forget.servePerform v x.forget e).2
      ∧ (w.servePerform v e).2.Sound := by
  have hx := h v x hv
  have hsupplied : x.content.automaton.SuppliedBy (w.supply x.lineage) :=
    hx.inLineage.suppliedBy
  obtain ⟨err, hedit, hplain⟩ | ⟨o, d, hedit, hplain, hf⟩ :=
    Analysed.edit_follows hx.content hsupplied e
  · simp only [servePerform, PlainWorkspace.servePerform, perform, version_eq hv, hedit,
      Version.forget, getD_supplies_forget, hplain, bind, Except.bind]
    exact ⟨trivial, trivial, h⟩
  · have hle : (w.supply x.lineage).next ≤ o.supply.next := by
      rw [hf.supply_eq]
      exact (hsupplied.edit hplain).1
    obtain ⟨hsettled, hforget⟩ := h.settle hv hf.source_eq hf.source_sound hle
    -- What the plain edit does is what the edit does, without the memories.
    have hd : d = ⟨o.result.map (·.automaton), o.added, o.supply⟩ := by
      rw [hf.result_eq, hf.added_eq, hf.supply_eq]
    cases ho : o.result with
    | none =>
        rw [hd, ho, Option.map_none] at hplain
        simp only [servePerform, PlainWorkspace.servePerform, perform, version_eq hv, hedit,
          Version.forget, getD_supplies_forget, hplain, bind, Except.bind, pure, Except.pure, ho]
        exact ⟨trivial, hforget, hsettled⟩
    | some y =>
        rw [hd, ho, Option.map_some] at hplain
        simp only [servePerform, PlainWorkspace.servePerform, perform, version_eq hv, hedit,
          Version.forget, getD_supplies_forget, hplain, bind, Except.bind, pure, Except.pure, ho]
        have hy : SoundVersion _ ⟨y, x.lineage⟩ :=
          hx.derived (.edited hx.inLineage hplain rfl) (hf.result_sound y ho)
        refine ⟨?_, ?_, hsettled.push hy⟩
        · rw [push, ← forget_size, hforget]
        · rw [forget_push, hforget]
          rfl

/-- **One request.** -/
theorem serve_forget (h : w.Sound) (r : Request) :
    (w.serve r).1 = (w.forget.serve r).1
      ∧ (w.serve r).2.forget = (w.forget.serve r).2 ∧ (w.serve r).2.Sound := by
  cases r with
  | create o =>
      cases ho : o.automaton with
      | error err =>
          simp only [serve, PlainWorkspace.serve, ho]
          exact ⟨trivial, trivial, h⟩
      | ok a =>
          simp only [serve, PlainWorkspace.serve, ho]
          refine ⟨?_, forget_push _ _, h.create ho⟩
          rw [forget_size]
          rfl
  | ask v q =>
      cases hv : w.versions[v]? with
      | none =>
          simp only [serve, PlainWorkspace.serve, getElem?_forget, hv, Option.map_none]
          exact ⟨trivial, trivial, h⟩
      | some x =>
          simp only [serve, PlainWorkspace.serve, getElem?_forget, hv, Option.map_some]
          obtain ⟨hanswer, hforget, hsound⟩ := ask_forget h hv q
          exact ⟨congrArg Response.answered hanswer, hforget, hsound⟩
  | perform v e =>
      cases hv : w.versions[v]? with
      | none =>
          simp only [serve, PlainWorkspace.serve, getElem?_forget, hv, Option.map_none]
          exact ⟨trivial, trivial, h⟩
      | some x =>
          simp only [serve, PlainWorkspace.serve, getElem?_forget, hv, Option.map_some]
          exact servePerform_forget h hv e

/-- **All requests of a session.** -/
theorem serveAll_forget (h : w.Sound) (requests : List Request) :
    (w.serveAll requests).1 = (w.forget.serveAll requests).1
      ∧ (w.serveAll requests).2.forget = (w.forget.serveAll requests).2
      ∧ (w.serveAll requests).2.Sound := by
  induction requests generalizing w with
  | nil => exact ⟨rfl, rfl, h⟩
  | cons r rest ih =>
      -- The rest is served by the workspace that the first request leaves, which is sound.
      obtain ⟨hresponse, hforget, hsound⟩ := serve_forget h r
      obtain ⟨hresponses, hforgets, hsounds⟩ := ih hsound
      unfold serveAll PlainWorkspace.serveAll
      rw [← hforget, ← hresponse]
      exact ⟨congrArg (_ :: ·) hresponses, hforgets, hsounds⟩

/-- Every automaton that a session comes to is a member of a lineage. -/
theorem inLineage_of_serveAll (requests : List Request) :
    ∀ x ∈ (empty.serveAll requests).2.versions,
      InLineage x.content.automaton ((empty.serveAll requests).2.supply x.lineage) := by
  intro x hx
  obtain ⟨v, hv⟩ := Array.mem_iff_getElem?.1 hx
  exact ((serveAll_forget sound_empty requests).2.2 v x hv).inLineage

/-- **Memory is not observable.**  In every session the responses and the versions
are those of the session without memory, and whatever is remembered of any version
is what the analysis of that version gives. -/
theorem session_without_memory (requests : List Request) :
    (empty.serveAll requests).1 = (PlainWorkspace.empty.serveAll requests).1
      ∧ (empty.serveAll requests).2.forget = (PlainWorkspace.empty.serveAll requests).2
      ∧ ∀ x ∈ (empty.serveAll requests).2.versions, x.content.Sound := by
  have hforget : empty.forget = PlainWorkspace.empty :=
    congrArg (PlainWorkspace.mk · #[]) Array.map_empty
  obtain ⟨hresponses, hworkspace, hsound⟩ := serveAll_forget sound_empty requests
  rw [hforget] at hresponses hworkspace
  refine ⟨hresponses, hworkspace, ?_⟩
  intro x hx
  obtain ⟨v, hv⟩ := Array.mem_iff_getElem?.1 hx
  exact (hsound v x hv).content

end Workspace

end FiniteAutomata
