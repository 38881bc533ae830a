-- SUMMARY: JSON values, as Value has them.
import Mathlib.Data.List.Lex
import Mathlib.Data.UInt
import NetworkEtc.Library.OrderedMap

/-!
# Values

A value has no comments here, and no place in a document. Strings are bytes. What a real number is,
how it is printed and how it is read are those of the C library.
-/

namespace Json

open Library

/-- `Value`. The members of an object are those of a `std::map`. -/
inductive Value (δ : Type) where
  | null
  | int (value : Int64)
  | uint (value : UInt64)
  | real (value : δ)
  | string (value : List UInt8)
  | boolean (value : Bool)
  | array (elements : List (Value δ))
  | object (members : List (List UInt8 × Value δ))

/-- What there is to know of a `double`: `isfinite`, `value != value`, `value < 0`, `snprintf` with
`%.17g` and `istream >> value`. -/
structure Reals (δ : Type) where
  isFinite : δ → Bool
  isNaN : δ → Bool
  isNegative : δ → Bool
  print : δ → List UInt8
  read : List UInt8 → Option δ

namespace Value

variable {δ : Type}

def isArray : Value δ → Bool
  | .array _ => true
  | _ => false

def isObject : Value δ → Bool
  | .object _ => true
  | _ => false

mutual

/-- How deep arrays and objects are nested, the value itself included. -/
def height : Value δ → Nat
  | .array elements => heightOfElements elements + 1
  | .object members => heightOfMembers members + 1
  | _ => 1

def heightOfElements : List (Value δ) → Nat
  | [] => 0
  | v :: elements => max v.height (heightOfElements elements)

def heightOfMembers : List (List UInt8 × Value δ) → Nat
  | [] => 0
  | (_, v) :: members => max v.height (heightOfMembers members)

end

variable {p q r : Value δ → Prop} {n : Nat}

theorem heightOfElements_le {elements : List (Value δ)} :
    heightOfElements elements ≤ n ↔ ∀ v ∈ elements, v.height ≤ n := by
  induction elements with
  | nil => exact iff_of_true (Nat.zero_le n) (List.forall_mem_nil _)
  | cons v elements ih => rw [heightOfElements, Nat.max_le, List.forall_mem_cons, ih]

theorem heightOfMembers_le {members : List (List UInt8 × Value δ)} :
    heightOfMembers members ≤ n ↔ ∀ m ∈ members, m.2.height ≤ n := by
  induction members with
  | nil => exact iff_of_true (Nat.zero_le n) (List.forall_mem_nil _)
  | cons m members ih => rw [heightOfMembers, Nat.max_le, List.forall_mem_cons, ih]

mutual

/-- `p` holds of the value and of all that are in it. -/
def All (p : Value δ → Prop) : Value δ → Prop
  | .array elements => p (.array elements) ∧ AllElements p elements
  | .object members => p (.object members) ∧ AllMembers p members
  | v => p v

def AllElements (p : Value δ → Prop) : List (Value δ) → Prop
  | [] => True
  | v :: elements => v.All p ∧ AllElements p elements

def AllMembers (p : Value δ → Prop) : List (List UInt8 × Value δ) → Prop
  | [] => True
  | (_, v) :: members => v.All p ∧ AllMembers p members

end

theorem allElements_iff {elements : List (Value δ)} :
    AllElements p elements ↔ ∀ v ∈ elements, v.All p := by
  induction elements with
  | nil => exact iff_of_true trivial (List.forall_mem_nil _)
  | cons v elements ih => rw [AllElements, List.forall_mem_cons, ih]

theorem allMembers_iff {members : List (List UInt8 × Value δ)} :
    AllMembers p members ↔ ∀ m ∈ members, m.2.All p := by
  induction members with
  | nil => exact iff_of_true trivial (List.forall_mem_nil _)
  | cons m members ih => rw [AllMembers, List.forall_mem_cons, ih]

mutual

theorem All.both (h : ∀ v, p v → q v → r v) : ∀ v : Value δ, v.All p → v.All q → v.All r
  | .null, hp, hq => h _ hp hq
  | .int _, hp, hq => h _ hp hq
  | .uint _, hp, hq => h _ hp hq
  | .real _, hp, hq => h _ hp hq
  | .string _, hp, hq => h _ hp hq
  | .boolean _, hp, hq => h _ hp hq
  | .array elements, hp, hq => ⟨h _ hp.1 hq.1, AllElements.both h elements hp.2 hq.2⟩
  | .object members, hp, hq => ⟨h _ hp.1 hq.1, AllMembers.both h members hp.2 hq.2⟩

theorem AllElements.both (h : ∀ v, p v → q v → r v) : ∀ elements : List (Value δ),
    AllElements p elements → AllElements q elements → AllElements r elements
  | [], _, _ => trivial
  | v :: elements, hp, hq => ⟨All.both h v hp.1 hq.1, AllElements.both h elements hp.2 hq.2⟩

theorem AllMembers.both (h : ∀ v, p v → q v → r v) : ∀ members : List (List UInt8 × Value δ),
    AllMembers p members → AllMembers q members → AllMembers r members
  | [], _, _ => trivial
  | (_, v) :: members, hp, hq => ⟨All.both h v hp.1 hq.1, AllMembers.both h members hp.2 hq.2⟩

end

example : (array [null, object [([97], array (δ := Unit) [])]]).height = 3 := rfl

end Value

instance strictTotalOrder_byte : IsStrictTotalOrder UInt8 (· < ·) where
  trichotomous a b hab hba := by
    rw [UInt8.lt_iff_toNat_lt] at hab hba
    exact UInt8.toNat_inj.mp (by omega)
  irrefl a := by
    rw [UInt8.lt_iff_toNat_lt]
    omega
  trans a b c := by
    simp only [UInt8.lt_iff_toNat_lt]
    omega

/-- `CZString::operator<` compares names as `memcmp` does, the shorter first. -/
instance strictTotalOrder_bytes : IsStrictTotalOrder (List UInt8) (· < ·) :=
  { isStrictWeakOrder_of_isOrderConnected (r := List.Lex (α := UInt8) (· < ·)) with
    trichotomous := (List.Lex.trichotomous (α := UInt8) (· < ·)).trichotomous }

end Json
