-- SUMMARY: json_writer.cpp: how FastWriter writes a value.
import NetworkEtc.Json.Value
import NetworkEtc.Library.Printf

/-!
# The writer

What is appended to `document_`.
-/

namespace Json

open Library.Printf

variable {δ : Type}

/-- The bytes of a string constant. -/
def chars (s : String) : List UInt8 := s.toList.map ascii

-- ---------------------------------------------------------------------------
-- Numbers
-- ---------------------------------------------------------------------------

/-- `uintToString`: digits are put in front of what the buffer holds. `room` places are left. -/
def uintToString : Nat → UInt64 → List UInt8 → List UInt8
  | 0, _, current => current
  | room + 1, value, current =>
    let current := ((value % 10).toUInt8 + ascii '0') :: current
    if value / 10 ≠ 0 then uintToString room (value / 10) current else current

/-- `3 * sizeof(LargestUInt)`: one more is for the zero at the end. -/
def uintToStringRoom : Nat := 24

def valueToStringLargestUInt (value : UInt64) : List UInt8 :=
  uintToString uintToStringRoom value []

def valueToStringLargestInt (value : Int64) : List UInt8 :=
  if value < 0 then ascii '-' :: uintToString uintToStringRoom (-value).toUInt64 []
  else uintToString uintToStringRoom value.toUInt64 []

def fixNumericLocale (buffer : List UInt8) : List UInt8 :=
  buffer.map fun c => if c = ascii ',' then ascii '.' else c

def valueToStringDouble (reals : Reals δ) (value : δ) : List UInt8 :=
  fixNumericLocale
    (if reals.isFinite value then reals.print value
    else if reals.isNaN value then chars "null"
    else if reals.isNegative value then chars "-1e+9999"
    else chars "1e+9999")

-- ---------------------------------------------------------------------------
-- Strings
-- ---------------------------------------------------------------------------

def isControlCharacter (ch : UInt8) : Bool := 0 < ch && ch ≤ 0x1F

def containsControlCharacter0 (str : List UInt8) : Bool :=
  str.any fun c => isControlCharacter c || c = 0

/-- The characters with an escape of their own. -/
def escaped : List UInt8 := [ascii '"', ascii '\\', 8, 12, ascii '\n', ascii '\r', ascii '\t']

/-- `std::hex << std::uppercase` -/
def hexDigit (d : UInt8) : UInt8 := if d < 10 then ascii '0' + d else ascii 'A' + (d - 10)

/-- What is written for one character. -/
def escape (c : UInt8) : List UInt8 :=
  if c = ascii '"' then [ascii '\\', ascii '"']
  else if c = ascii '\\' then [ascii '\\', ascii '\\']
  else if c = 8 then [ascii '\\', ascii 'b']
  else if c = 12 then [ascii '\\', ascii 'f']
  else if c = ascii '\n' then [ascii '\\', ascii 'n']
  else if c = ascii '\r' then [ascii '\\', ascii 'r']
  else if c = ascii '\t' then [ascii '\\', ascii 't']
  else if isControlCharacter c || c = 0 then
    [ascii '\\', ascii 'u', ascii '0', ascii '0', hexDigit (c / 16), hexDigit (c % 16)]
  else [c]

def valueToQuotedStringN (value : List UInt8) : List UInt8 :=
  if value.all (fun c => c ∉ escaped) && !containsControlCharacter0 value then
    ascii '"' :: value ++ [ascii '"']
  else ascii '"' :: value.flatMap escape ++ [ascii '"']

/-- A string needs no walk if it has nothing to escape, and the walk would write the same. -/
theorem valueToQuotedStringN_eq (value : List UInt8) :
    valueToQuotedStringN value = ascii '"' :: value.flatMap escape ++ [ascii '"'] := by
  unfold valueToQuotedStringN
  split
  · next hplain =>
    obtain ⟨hescaped, hcontrol⟩ := Bool.and_eq_true_iff.mp hplain
    have hself : ∀ c ∈ value, escape c = [c] := by
      intro c hc
      have hnot : c ∉ escaped := of_decide_eq_true (List.all_eq_true.mp hescaped c hc)
      have hcontrol' : ¬ (isControlCharacter c || c = 0) = true := by
        intro h
        rw [containsControlCharacter0, List.any_eq_true.mpr ⟨c, hc, h⟩] at hcontrol
        cases hcontrol
      simp only [escaped, List.mem_cons, List.not_mem_nil, or_false, not_or] at hnot
      obtain ⟨h₁, h₂, h₃, h₄, h₅, h₆, h₇⟩ := hnot
      unfold escape
      rw [if_neg h₁, if_neg h₂, if_neg h₃, if_neg h₄, if_neg h₅, if_neg h₆, if_neg h₇,
        if_neg hcontrol']
    have hflat : value.flatMap escape = value := by
      rw [List.flatMap_congr hself]
      exact List.flatMap_singleton' value
    rw [hflat]
  · rfl

-- ---------------------------------------------------------------------------
-- FastWriter
-- ---------------------------------------------------------------------------

structure FastWriter where
  yamlCompatiblityEnabled : Bool
  dropNullPlaceholders : Bool
  omitEndingLineFeed : Bool

namespace FastWriter

variable (w : FastWriter) (reals : Reals δ)

mutual

def writeValue : Value δ → List UInt8
  | .null => if w.dropNullPlaceholders then [] else chars "null"
  | .int value => valueToStringLargestInt value
  | .uint value => valueToStringLargestUInt value
  | .real value => valueToStringDouble reals value
  | .string value => valueToQuotedStringN value
  | .boolean value => if value then chars "true" else chars "false"
  | .array elements => ascii '[' :: writeElements elements ++ [ascii ']']
  | .object members => ascii '{' :: writeMembers members ++ [ascii '}']

def writeElements : List (Value δ) → List UInt8
  | [] => []
  | [v] => writeValue v
  | v :: v' :: elements => writeValue v ++ ascii ',' :: writeElements (v' :: elements)

def writeMembers : List (List UInt8 × Value δ) → List UInt8
  | [] => []
  | [(name, v)] => valueToQuotedStringN name ++
      (if w.yamlCompatiblityEnabled then chars ": " else chars ":") ++ writeValue v
  | (name, v) :: m :: members => valueToQuotedStringN name ++
      (if w.yamlCompatiblityEnabled then chars ": " else chars ":") ++ writeValue v ++
      ascii ',' :: writeMembers (m :: members)

end

def write (root : Value δ) : List UInt8 :=
  w.writeValue reals root ++ if w.omitEndingLineFeed then [] else [ascii '\n']

end FastWriter

end Json
