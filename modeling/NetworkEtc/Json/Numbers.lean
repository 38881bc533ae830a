-- SUMMARY: The integers that are written are read again.
import NetworkEtc.Json.Text

/-!
# Numbers

`uintToString` writes numerals, and these denote the integers they are written for.
-/

namespace Json

open Library.Printf Library.Decimal

variable {δ : Type} {reals : Reals δ}

-- ---------------------------------------------------------------------------
-- Writing
-- ---------------------------------------------------------------------------

/-- The last digit of a numeral, and those in front of it. -/
theorem numeral_eq (n : Nat) :
    numeral n = (if n / 10 = 0 then [] else numeral (n / 10)) ++ [UInt8.ofNat (48 + n % 10)] := by
  rcases Nat.eq_zero_or_pos n with rfl | hpos
  · rfl
  · unfold numeral
    rw [if_neg hpos.ne', Nat.digits_def' (by decide) hpos, List.reverse_cons, List.map_append]
    split
    · next hzero =>
      rw [hzero]
      rfl
    · rfl

theorem digit_eq (value : UInt64) :
    (value % 10).toUInt8 + ascii '0' = UInt8.ofNat (48 + value.toNat % 10) := by
  have hmod : (value % 10).toNat = value.toNat % 10 := UInt64.toNat_mod _ _
  have hascii : (ascii '0').toNat = 48 := rfl
  refine UInt8.toNat_inj.mp ?_
  rw [UInt8.toNat_add, UInt64.toNat_toUInt8, hmod, hascii, UInt8.toNat_ofNat']
  omega

theorem uintToString_eq (room : Nat) (value : UInt64) (current : List UInt8)
    (hvalue : value.toNat < 10 ^ room) (hroom : 0 < room) :
    uintToString room value current = numeral value.toNat ++ current := by
  induction room generalizing value current with
  | zero => exact absurd hroom (Nat.lt_irrefl 0)
  | succ room ih =>
    have hdigit := digit_eq value
    have hdiv : (value / 10).toNat = value.toNat / 10 := UInt64.toNat_div _ _
    rw [numeral_eq, uintToString, hdigit, ← hdiv]
    by_cases hzero : value / 10 = 0
    · rw [if_neg (not_not.mpr hzero), if_pos (by rw [hzero]; rfl)]
      rfl
    · have hne : (value / 10).toNat ≠ 0 := fun h => hzero (UInt64.toNat_inj.mp h)
      rw [if_pos hzero, if_neg hne, ih, List.append_assoc]
      · rfl
      · rw [hdiv, Nat.div_lt_iff_lt_mul (by decide), ← Nat.pow_succ]
        exact hvalue
      · refine Nat.pos_of_ne_zero ?_
        rintro rfl
        omega

theorem valueToStringLargestUInt_eq (value : UInt64) :
    valueToStringLargestUInt value = numeral value.toNat := by
  unfold valueToStringLargestUInt
  rw [uintToString_eq, List.append_nil]
  · exact value.toNat_lt.trans (by decide)
  · decide

-- ---------------------------------------------------------------------------
-- Reading
-- ---------------------------------------------------------------------------

theorem isNumber_uint (n : UInt64) :
    IsNumber reals (valueToStringLargestUInt n) (ofUInt64 n) := by
  have hinteger := IsInteger.plain (numeral_isNumeral n.toNat).2
    (by rw [value_numeral]; exact n.toNat_lt)
  rw [value_numeral] at hinteger
  rw [valueToStringLargestUInt_eq, ← ofInteger_plain]
  exact .integer hinteger

theorem valueToStringLargestInt_eq (n : Int64) : valueToStringLargestInt n =
    if n < 0 then ascii '-' :: numeral (-n).toUInt64.toNat else numeral n.toUInt64.toNat := by
  unfold valueToStringLargestInt
  rw [← valueToStringLargestUInt_eq, ← valueToStringLargestUInt_eq]
  rfl

/-- The least integer is as far from zero as a sign lets a number be. -/
theorem neg_le {n : Int64} (h : n < 0) : (-n).toUInt64 ≤ 0x8000000000000000 := by
  have hneg : (-n).toUInt64.toNat = (2 ^ 64 - n.toBitVec.toNat) % 2 ^ 64 := BitVec.toNat_neg n.toBitVec
  have hbound : (0x8000000000000000 : UInt64).toNat = 2 ^ 63 := rfl
  have hlt : n.toBitVec.toInt < 0 := Int64.lt_iff_toInt_lt.mp h
  rw [BitVec.toInt_eq_toNat_cond] at hlt
  rw [UInt64.le_iff_toNat_le, hneg, hbound]
  split at hlt <;> omega

/-- The value that a signed integer in a document has. -/
def ofInt64 (n : Int64) : Value δ := if n < 0 then .int n else ofUInt64 n.toUInt64

theorem isNumber_int (n : Int64) : IsNumber reals (valueToStringLargestInt n) (ofInt64 n) := by
  rw [valueToStringLargestInt_eq]
  unfold ofInt64
  by_cases hn : n < 0
  · have hle : (-n).toUInt64.toNat ≤ 2 ^ 63 := UInt64.le_iff_toNat_le.mp (neg_le hn)
    have hinteger := IsInteger.minus (numeral_isNumeral (-n).toUInt64.toNat).2
      (by rw [value_numeral]; exact hle)
    rw [value_numeral] at hinteger
    have hvalue : ofInteger (δ := δ) (-(-n).toUInt64.toNat) = .int n := by
      rw [ofInteger_minus, Int64.toInt64_toUInt64, Int64.neg_neg]
    rw [if_pos hn, if_pos hn, ← hvalue]
    exact .integer hinteger
  · rw [if_neg hn, if_neg hn, ← valueToStringLargestUInt_eq]
    exact isNumber_uint n.toUInt64

theorem numberText_numeral (n : Nat) : NumberText (numeral n) := by
  obtain ⟨hne, hds⟩ := numeral_isNumeral n
  obtain ⟨c, ds, heq⟩ := List.exists_cons_of_ne_nil hne
  rw [heq] at hds ⊢
  obtain ⟨hc, hds⟩ := List.forall_mem_cons.mp hds
  have htext := NumberText.mk (Or.inl hc) hds (Or.inl rfl) (Or.inl rfl)
  rw [List.append_nil, List.append_nil] at htext
  exact htext

theorem numberText_uint (n : UInt64) : NumberText (valueToStringLargestUInt n) := by
  rw [valueToStringLargestUInt_eq]
  exact numberText_numeral _

theorem numberText_int (n : Int64) : NumberText (valueToStringLargestInt n) := by
  rw [valueToStringLargestInt_eq]
  split
  · have htext := NumberText.mk (Or.inr rfl) (numeral_isNumeral (-n).toUInt64.toNat).2 (Or.inl rfl)
      (Or.inl rfl)
    rw [List.append_nil, List.append_nil] at htext
    exact htext
  · exact numberText_numeral _

end Json
