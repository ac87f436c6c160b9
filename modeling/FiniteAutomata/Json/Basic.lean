/-
  FiniteAutomata.Json.Basic
  ─────────────────────────
  JSON values.

  Definitions of automata are JSON documents, and a caller's ids and names are
  JSON values until they are checked.  Integers and floating-point numbers are
  told apart, and the members of an object keep their order.

  A caller may look something up under any value.  Arrays and objects cannot be
  keys; of the other values, those that equal an integer find what is stored
  under it, and the rest find nothing.
-/
import FiniteAutomata.Binary64.Basic

namespace FiniteAutomata

/-- A JSON value. -/
inductive Json where
  | null
  | bool (value : Bool)
  | int (value : Int)
  | float (value : Binary64)
  | str (value : String)
  | arr (items : List Json)
  | obj (members : List (String × Json))

namespace Json

instance : Inhabited Json := ⟨.null⟩

/-! ## §1. Equality. -/

mutual

/-- Whether two values are the same. -/
def same : Json → Json → Bool
  | .null, .null => true
  | .bool a, .bool b => a = b
  | .int a, .int b => a = b
  | .float a, .float b => a = b
  | .str a, .str b => a = b
  | .arr as, .arr bs => sameItems as bs
  | .obj as, .obj bs => sameMembers as bs
  | _, _ => false

/-- Whether two lists of values are the same. -/
def sameItems : List Json → List Json → Bool
  | [], [] => true
  | a :: as, b :: bs => same a b && sameItems as bs
  | _, _ => false

/-- Whether two lists of members are the same. -/
def sameMembers : List (String × Json) → List (String × Json) → Bool
  | [], [] => true
  | (j, a) :: as, (k, b) :: bs => j = k && same a b && sameMembers as bs
  | _, _ => false

end

mutual

theorem same_refl : ∀ a : Json, same a a = true
  | .null => rfl
  | .bool _ | .int _ | .float _ | .str _ => by simp [same]
  | .arr as => by rw [same]; exact sameItems_refl as
  | .obj as => by rw [same]; exact sameMembers_refl as

theorem sameItems_refl : ∀ as : List Json, sameItems as as = true
  | [] => rfl
  | a :: as => by rw [sameItems, same_refl a, sameItems_refl as]; rfl

theorem sameMembers_refl : ∀ as : List (String × Json), sameMembers as as = true
  | [] => rfl
  | (j, a) :: as => by
      rw [sameMembers, same_refl a, sameMembers_refl as]
      simp

end

mutual

theorem eq_of_same : ∀ {a b : Json}, same a b = true → a = b
  | .null, .null, _ => rfl
  | .bool _, .bool _, h | .int _, .int _, h | .float _, .float _, h
  | .str _, .str _, h => by simpa [same] using h
  | .arr as, .arr bs, h => by rw [same] at h; rw [eq_of_sameItems h]
  | .obj as, .obj bs, h => by rw [same] at h; rw [eq_of_sameMembers h]
  | .null, .bool _, h | .null, .int _, h | .null, .float _, h | .null, .str _, h
  | .null, .arr _, h | .null, .obj _, h
  | .bool _, .null, h | .bool _, .int _, h | .bool _, .float _, h
  | .bool _, .str _, h | .bool _, .arr _, h | .bool _, .obj _, h
  | .int _, .null, h | .int _, .bool _, h | .int _, .float _, h
  | .int _, .str _, h | .int _, .arr _, h | .int _, .obj _, h
  | .float _, .null, h | .float _, .bool _, h | .float _, .int _, h
  | .float _, .str _, h | .float _, .arr _, h | .float _, .obj _, h
  | .str _, .null, h | .str _, .bool _, h | .str _, .int _, h
  | .str _, .float _, h | .str _, .arr _, h | .str _, .obj _, h
  | .arr _, .null, h | .arr _, .bool _, h | .arr _, .int _, h
  | .arr _, .float _, h | .arr _, .str _, h | .arr _, .obj _, h
  | .obj _, .null, h | .obj _, .bool _, h | .obj _, .int _, h
  | .obj _, .float _, h | .obj _, .str _, h | .obj _, .arr _, h => by
      simp [same] at h

theorem eq_of_sameItems : ∀ {as bs : List Json}, sameItems as bs = true → as = bs
  | [], [], _ => rfl
  | a :: as, b :: bs, h => by
      rw [sameItems, Bool.and_eq_true] at h
      rw [eq_of_same h.1, eq_of_sameItems h.2]
  | [], _ :: _, h | _ :: _, [], h => by simp [sameItems] at h

theorem eq_of_sameMembers :
    ∀ {as bs : List (String × Json)}, sameMembers as bs = true → as = bs
  | [], [], _ => rfl
  | (j, a) :: as, (k, b) :: bs, h => by
      simp only [sameMembers, Bool.and_eq_true, decide_eq_true_eq] at h
      rw [h.1.1, eq_of_same h.1.2, eq_of_sameMembers h.2]
  | [], _ :: _, h | _ :: _, [], h => by simp [sameMembers] at h

end

instance : DecidableEq Json := fun a b =>
  if h : same a b = true then isTrue (eq_of_same h)
  else isFalse fun e => h (e ▸ same_refl a)

/-! ## §2. Access. -/

/-- The value of the member named `key` of an object. -/
def get? (key : String) : Json → Option Json
  | .obj members => members.lookup key
  | _ => none

/-- The members with one more: a member of the same name takes its value where
it stands, otherwise it comes last. -/
def setMember (key : String) (value : Json) :
    List (String × Json) → List (String × Json)
  | [] => [(key, value)]
  | (k, v) :: rest =>
      if k = key then (k, value) :: rest else (k, v) :: setMember key value rest

/-! ## §3. Values as keys. -/

/-- Whether a value can be a key. -/
def isKey : Json → Bool
  | .arr _ | .obj _ => false
  | _ => true

/-- The integer that a value equals.  The truth values count as one and zero. -/
def toInt? : Json → Option Int
  | .int n => some n
  | .bool b => some (if b then 1 else 0)
  | .float x => x.toInt?
  | _ => none

/-- The integer that a value is, not counting floating-point numbers. -/
def asInt? : Json → Option Int
  | .float _ => none
  | v => v.toInt?

end Json

end FiniteAutomata
