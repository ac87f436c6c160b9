/-
  FiniteAutomata.Workspace.Basic
  ──────────────────────────────
  **Workspaces: versions of automata and the ids of their lineages.**

  Every automaton that is created or derived in a workspace becomes a version
  with an id of its own.  A version never changes, but for what is remembered of
  its analyses.  An edit that changes nothing answers the version it was made
  on; any other edit answers a new one.  All versions derived from one created
  automaton form a lineage and draw the ids of new states from one supply.
-/
import FiniteAutomata.Automaton.Parts
import FiniteAutomata.Automaton.Question

namespace FiniteAutomata

/-- The id of a version. -/
abbrev VersionId := Nat

/-- The id of a lineage. -/
abbrev LineageId := Nat

/-- An automaton in a workspace, with what is remembered of it. -/
structure Version where
  content : Analysed
  lineage : LineageId
  deriving Inhabited

/-- The versions, by id, and the supplies of the lineages. -/
structure Workspace where
  versions : Array Version
  supplies : Array IdSupply

namespace Workspace

/-- The workspace without versions. -/
def empty : Workspace := ⟨#[], #[]⟩

instance : Inhabited Workspace := ⟨empty⟩

/-! ## §1. Versions. -/

/-- A version; the empty automaton if there is none with the id. -/
def version (w : Workspace) (v : VersionId) : Version := w.versions.getD v default

/-- The automaton of a version. -/
def automaton (w : Workspace) (v : VersionId) : Automaton :=
  (w.version v).content.automaton

/-- What is remembered of a version. -/
def memo (w : Workspace) (v : VersionId) : Memo := (w.version v).content.memo

/-- The supply of a lineage. -/
def supply (w : Workspace) (l : LineageId) : IdSupply := w.supplies.getD l default

/-- A further version. -/
def push (w : Workspace) (version : Version) : VersionId × Workspace :=
  (w.versions.size, { w with versions := w.versions.push version })

/-- Replace what is remembered of a version. -/
def remember (w : Workspace) (v : VersionId) (content : Analysed) : Workspace :=
  { w with versions := w.versions.modify v fun version => { version with content } }

/-- Replace the supply of a lineage. -/
def replenish (w : Workspace) (l : LineageId) (supply : IdSupply) : Workspace :=
  { w with supplies := w.supplies.modify l fun _ => supply }

/-- The root of a new lineage. -/
def create (w : Workspace) (a : Automaton) : VersionId × Workspace :=
  { w with supplies := w.supplies.push a.freshSupply }.push
    ⟨.ofAutomaton a, w.supplies.size⟩

/-! ## §2. Questions. -/

/-- Ask a question about a version. -/
def ask (w : Workspace) (v : VersionId) (q : Question) : Answer × Workspace :=
  let (answer, content) := (w.version v).content.answer q
  (answer, w.remember v content)

/-! ## §3. Edits. -/

/-- What an edit of a version does. -/
structure Performed where
  version : VersionId
  added : Option StateId
  workspace : Workspace

/-- Perform an edit on a version. -/
def perform (w : Workspace) (v : VersionId) (e : Edit) : Except EditError Performed := do
  let ⟨content, lineage⟩ := w.version v
  let outcome ← content.edit (w.supply lineage) e
  -- The edit may have analysed the version it is made on.
  let w := (w.remember v outcome.source).replenish lineage outcome.supply
  match outcome.result with
  | none => return ⟨v, outcome.added, w⟩
  | some x =>
      let (derived, w) := w.push ⟨x, lineage⟩
      return ⟨derived, outcome.added, w⟩

/-- Perform a command on a version. -/
def performCommand (w : Workspace) (v : VersionId) : Command → Except EditError Performed
  | .edit e => w.perform v e
  | .other value => .error (.notACommand value)

/-- Perform commands in order, each on the version that the one before it
answers.  What the commands before a failing one did to the workspace stays. -/
def performAll (w : Workspace) (v : VersionId) :
    List Command → Except EditError VersionId × Workspace
  | [] => (.ok v, w)
  | c :: rest =>
      match w.performCommand v c with
      | .ok done => done.workspace.performAll done.version rest
      | .error e => (.error e, w)

end Workspace

end FiniteAutomata
