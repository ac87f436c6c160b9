/-
  FiniteAutomata.Proofs.Path
  ──────────────────────────
  **PATHS THROUGH A TRANSITION TABLE.**

  A path goes from state to state along edges of a table.  On each edge it
  either reads the next character of a word, which the label must have, or
  reads nothing, for which the label must have the empty symbol.  Paths say
  what a table means without any run:

      Path t p w q   —   from `p` to `q`, reading exactly `w`

  Main statements: paths compose and split with the words that they read
  (`Path.append`, `Path.split`), a path that reads nothing is a link along the
  edges without input (`path_nil_iff`), any path is a link along edges and the
  other way round if every edge matches something (`Path.linked`,
  `exists_path_of_linked`), and paths depend only on which symbols are on which
  edges (`Path.mono`).
-/
import FiniteAutomata.Graph.Analyses

namespace FiniteAutomata

/-! ## §1. The relation. -/

/-- `Path t p w q`: edges of the table lead from `p` to `q` and read `w`. -/
inductive Path (t : Table) : StateId → List Char → StateId → Prop where
  | nil (p : StateId) : Path t p [] p
  /-- An edge with the empty symbol reads nothing. -/
  | silent {p m q : StateId} {w : List Char} {g : SymbolSet} :
      t.label? p m = some g → .empty ∈ g → Path t m w q → Path t p w q
  /-- An edge reads one of its characters. -/
  | read {p m q : StateId} {c : Char} {w : List Char} {g : SymbolSet} :
      t.label? p m = some g → .char c ∈ g → Path t m w q → Path t p (c :: w) q

namespace Path

variable {t : Table}

theorem append {p m q : StateId} {u v : List Char} (h : Path t p u m)
    (h' : Path t m v q) : Path t p (u ++ v) q := by
  induction h with
  | nil => exact h'
  | silent hl he _ ih => exact .silent hl he (ih h')
  | read hl hc _ ih => exact .read hl hc (ih h')

/-- A path that reads two words passes between them. -/
theorem split {p q : StateId} {u v : List Char} (h : Path t p (u ++ v) q) :
    ∃ m, Path t p u m ∧ Path t m v q := by
  generalize hw : u ++ v = w at h
  induction h generalizing u with
  | nil p =>
      obtain ⟨hu, hv⟩ := List.append_eq_nil_iff.1 hw
      subst hu hv
      exact ⟨p, .nil p, .nil p⟩
  | silent hl he _ ih =>
      obtain ⟨m, hu, hv⟩ := ih hw
      exact ⟨m, .silent hl he hu, hv⟩
  | @read p m q c w g hl hc hp ih =>
      cases u with
      | nil =>
          -- The first word is read up at once.
          have hv : v = c :: w := hw
          subst hv
          exact ⟨p, .nil p, .read hl hc hp⟩
      | cons d u =>
          injection hw with hd hw
          subst hd
          obtain ⟨m, hu, hv⟩ := ih hw
          exact ⟨m, .read hl hc hu, hv⟩

/-- The character of a path that reads one is read on one of its edges. -/
theorem exists_read {p q : StateId} {c : Char} {w : List Char}
    (h : Path t p (c :: w) q) :
    ∃ m n g, Path t p [] m ∧ t.label? m n = some g ∧ .char c ∈ g ∧ Path t n w q := by
  generalize hv : c :: w = v at h
  induction h with
  | nil => cases hv
  | silent hl he _ ih =>
      obtain ⟨m, n, g, hm, hl', hc, hn⟩ := ih hv
      exact ⟨m, n, g, .silent hl he hm, hl', hc, hn⟩
  | @read p n q d v g hl hc hn =>
      injection hv with hd hw
      subst hd hw
      exact ⟨p, n, g, .nil p, hl, hc, hn⟩

end Path

/-- States with an edge between them are linked. -/
theorem Table.linked_of_label? {t : Table} {p q : StateId} {g : SymbolSet}
    (h : t.label? p q = some g) : Linked t.edges p q :=
  .of_mem (Table.mem_edges (e := ⟨p, q⟩).2 ⟨g, h⟩)

/-- A path goes along edges. -/
theorem Path.linked {t : Table} {p q : StateId} {w : List Char} (h : Path t p w q) :
    Linked t.edges p q := by
  induction h with
  | nil p => exact .refl p
  | silent hl _ _ ih => exact (Table.linked_of_label? hl).trans ih
  | read hl _ _ ih => exact (Table.linked_of_label? hl).trans ih

/-- `Carries t p q x`: there is an edge from `p` to `q`, and it has the symbol. -/
def Table.Carries (t : Table) (p q : StateId) (x : Symbol) : Prop :=
  ∃ g, t.label? p q = some g ∧ x ∈ g

theorem Table.carries_iff {t : Table} {p q : StateId} {g : SymbolSet}
    (hl : t.label? p q = some g) {x : Symbol} : t.Carries p q x ↔ x ∈ g := by
  unfold Carries
  rw [hl]
  simp

theorem Table.not_carries {t : Table} {p q : StateId} (hl : t.label? p q = none) (x : Symbol) :
    ¬ t.Carries p q x := by
  unfold Carries
  rw [hl]
  simp

theorem SymbolSet.mem_getD {o : Option SymbolSet} {x : Symbol} :
    x ∈ o.getD ∅ ↔ ∃ g, o = some g ∧ x ∈ g := by
  cases o with
  | none => simp
  | some g => simp

/-- Where edges have more symbols, paths stay paths. -/
theorem Path.mono {t t' : Table} (h : ∀ p q x, t.Carries p q x → t'.Carries p q x)
    {p q : StateId} {w : List Char} (hp : Path t p w q) : Path t' p w q := by
  induction hp with
  | nil p => exact .nil p
  | silent hl he _ ih =>
      obtain ⟨g, hl', he'⟩ := h _ _ _ ⟨_, hl, he⟩
      exact .silent hl' he' ih
  | read hl hc _ ih =>
      obtain ⟨g, hl', hc'⟩ := h _ _ _ ⟨_, hl, hc⟩
      exact .read hl' hc' ih

/-! ## §2. Links as paths. -/

theorem path_of_linked_emptyEdges {t : Table} {p q : StateId}
    (h : Linked t.emptyEdges p q) : Path t p [] q := by
  induction h with
  | refl => exact .nil p
  | tail e _ he heq ih =>
      obtain ⟨g, hl, hg⟩ := Table.mem_emptyEdges.1 he
      subst heq
      exact ih.append (.silent hl hg (.nil _))

/-- A path that reads nothing is a link along edges without input. -/
theorem path_nil_iff {t : Table} {p q : StateId} :
    Path t p [] q ↔ Linked t.emptyEdges p q := by
  constructor
  · intro h
    generalize hw : [] = w at h
    induction h with
    | nil p => exact .refl p
    | @silent p m q w g hl he _ ih =>
        have hmem : (⟨p, m⟩ : Edge) ∈ t.emptyEdges := Table.mem_emptyEdges.2 ⟨g, hl, he⟩
        exact .trans (.of_mem hmem) (ih hw)
    | read => cases hw
  · exact path_of_linked_emptyEdges

/-- Where every edge matches something, what is linked is joined by a path. -/
theorem exists_path_of_linked {t : Table} (ht : ∀ o m g, t.label? o m = some g → g ≠ ∅)
    {p q : StateId} (h : Linked t.edges p q) : ∃ w, Path t p w q := by
  induction h with
  | refl => exact ⟨[], .nil p⟩
  | tail e _ he heq ih =>
      obtain ⟨w, hw⟩ := ih
      obtain ⟨g, hl⟩ := Table.mem_edges.1 he
      obtain ⟨x, hx⟩ := SymbolSet.exists_mem (ht _ _ g hl)
      subst heq
      -- The last edge reads nothing or a character, whichever symbol it has.
      cases x with
      | empty => exact ⟨w ++ [], hw.append (.silent hl hx (.nil _))⟩
      | char c => exact ⟨w ++ [c], hw.append (.read hl hx (.nil _))⟩

end FiniteAutomata
