-- SUMMARY: Decimal numerals as bytes: the canonical numeral of a number and the number a numeral denotes.
import Mathlib.Data.Nat.Digits.Lemmas
import Mathlib.Data.UInt

/-!
# Decimal numerals

A numeral is a non-empty list of ASCII digits, leading zeros allowed. `value` is
what it denotes and `numeral` is the one without leading zeros.
-/

namespace Library.Decimal

/-- `'0' <= c && c <= '9'` -/
def isDigit (c : UInt8) : Bool := 48 ≤ c && c ≤ 57

/-- The number a single digit stands for. -/
def digit (c : UInt8) : Nat := c.toNat - 48

def value (ds : List UInt8) : Nat := ds.foldl (fun n c => n * 10 + digit c) 0

def numeral (n : Nat) : List UInt8 :=
  if n = 0 then [48] else (Nat.digits 10 n).reverse.map fun d => UInt8.ofNat (48 + d)

/-- A digit string that is not empty. -/
def IsNumeral (ds : List UInt8) : Prop := ds ≠ [] ∧ ∀ c ∈ ds, isDigit c = true

instance (ds : List UInt8) : Decidable (IsNumeral ds) :=
  decidable_of_iff ((!ds.isEmpty && ds.all isDigit) = true) (by simp [IsNumeral])

theorem isDigit_iff {c : UInt8} : isDigit c = true ↔ 48 ≤ c.toNat ∧ c.toNat ≤ 57 := by
  simp [isDigit, UInt8.le_iff_toNat_le]

theorem digit_lt {c : UInt8} (h : isDigit c = true) : digit c < 10 := by
  rw [isDigit_iff] at h
  unfold digit
  omega

theorem digit_ofNat {d : Nat} (h : d < 10) : digit (UInt8.ofNat (48 + d)) = d := by
  have hlt : 48 + d < UInt8.size := by simp only [UInt8.size]; omega
  rw [digit, UInt8.toNat_ofNat_of_lt' hlt]
  omega

theorem isDigit_ofNat {d : Nat} (h : d < 10) : isDigit (UInt8.ofNat (48 + d)) = true := by
  have hlt : 48 + d < UInt8.size := by simp only [UInt8.size]; omega
  rw [isDigit_iff, UInt8.toNat_ofNat_of_lt' hlt]
  omega

/-- A digit is the digit of the number it stands for. -/
theorem ofNat_digit {c : UInt8} (h : isDigit c = true) : UInt8.ofNat (48 + digit c) = c := by
  rw [isDigit_iff] at h
  have hsum : 48 + digit c = c.toNat := by unfold digit; omega
  rw [hsum, UInt8.ofNat_toNat]

-- ---------------------------------------------------------------------------
-- Value
-- ---------------------------------------------------------------------------

@[simp] theorem value_nil : value [] = 0 := rfl

/-- The value as the digit sum of Mathlib, whose lists have the units first. -/
theorem value_eq_ofDigits (ds : List UInt8) :
    value ds = Nat.ofDigits 10 (ds.map digit).reverse := by
  rw [Nat.ofDigits_eq_foldr, List.foldr_reverse, List.foldl_map]
  simp only [Nat.cast_id]
  unfold value
  congr 1
  funext n c
  omega

theorem value_cons_zero (ds : List UInt8) : value (48 :: ds) = value ds := rfl

-- ---------------------------------------------------------------------------
-- The canonical numeral
-- ---------------------------------------------------------------------------

theorem numeral_isNumeral (n : Nat) : IsNumeral (numeral n) := by
  unfold numeral
  split
  · exact ⟨by simp, by simp [isDigit]⟩
  · rename_i h
    refine ⟨by simpa using Nat.digits_ne_nil_iff_ne_zero.mpr h, fun c hc => ?_⟩
    obtain ⟨d, hd, rfl⟩ := List.mem_map.mp hc
    exact isDigit_ofNat (Nat.digits_lt_base (by omega) (List.mem_reverse.mp hd))

theorem value_numeral (n : Nat) : value (numeral n) = n := by
  unfold numeral
  split
  · rename_i h
    rw [h]
    rfl
  · have hmap : ((Nat.digits 10 n).reverse.map fun d => UInt8.ofNat (48 + d)).map digit =
        (Nat.digits 10 n).reverse := by
      rw [List.map_map]
      refine (List.map_congr_left fun d hd => ?_).trans (List.map_id _)
      exact digit_ofNat (Nat.digits_lt_base (by omega) (List.mem_reverse.mp hd))
    rw [value_eq_ofDigits, hmap, List.reverse_reverse, Nat.ofDigits_digits]

theorem length_numeral_le {n k : Nat} (h : n < 10 ^ k) (hk : 0 < k) :
    (numeral n).length ≤ k := by
  unfold numeral
  split
  · exact hk
  · simpa using (Nat.digits_length_le_iff (by omega) n).mpr h

/-- Only the numeral of zero begins with a zero. -/
theorem head?_numeral {n : Nat} (hn : n ≠ 0) : (numeral n).head? ≠ some 48 := by
  have hne : Nat.digits 10 n ≠ [] := Nat.digits_ne_nil_iff_ne_zero.mpr hn
  have hlast := Nat.getLast_digit_ne_zero 10 hn
  have hlt : (Nat.digits 10 n).getLast hne < 10 :=
    Nat.digits_lt_base (by decide) (List.getLast_mem hne)
  rw [numeral, if_neg hn, List.head?_map, List.head?_reverse, List.getLast?_eq_some_getLast hne,
    Option.map_some]
  intro heq
  have hzero := digit_ofNat hlt
  rw [Option.some.inj heq] at hzero
  exact hlast hzero.symm

/-- A digit string that does not begin with a zero is canonical. -/
theorem numeral_value_of_head {c : UInt8} {ds : List UInt8}
    (hdigits : ∀ d ∈ c :: ds, isDigit d = true) (hc : c ≠ 48) :
    numeral (value (c :: ds)) = c :: ds := by
  have hpos : digit c ≠ 0 := by
    have hd := isDigit_iff.mp (hdigits c List.mem_cons_self)
    intro hzero
    refine hc (UInt8.toNat_inj.mp ?_)
    have h48 : (48 : UInt8).toNat = 48 := rfl
    unfold digit at hzero
    omega
  have hdig : Nat.digits 10 (value (c :: ds)) = ((c :: ds).map digit).reverse := by
    rw [value_eq_ofDigits]
    refine Nat.digits_ofDigits 10 (by omega) _ (fun d hd => ?_) (fun _ => ?_)
    · obtain ⟨e, he, rfl⟩ := List.mem_map.mp (List.mem_reverse.mp hd)
      exact digit_lt (hdigits e he)
    · simpa using hpos
  have hne : value (c :: ds) ≠ 0 := by
    intro hzero
    simp [hzero] at hdig
  rw [numeral, if_neg hne, hdig, List.reverse_reverse, List.map_map]
  refine (List.map_congr_left fun d hd => ?_).trans (List.map_id _)
  exact ofNat_digit (hdigits d hd)

/-- Every numeral is the canonical one of its value up to leading zeros. -/
theorem eq_zeros_append_numeral {ds : List UInt8} (h : IsNumeral ds) :
    ∃ k, ds = List.replicate k 48 ++ numeral (value ds) := by
  obtain ⟨hne, hdigits⟩ := h
  induction ds with
  | nil => exact absurd rfl hne
  | cons c ds ih =>
    by_cases hc : c = 48
    · subst hc
      by_cases hds : ds = []
      · subst hds
        exact ⟨0, rfl⟩
      · obtain ⟨k, hk⟩ := ih hds fun d hd => hdigits d (List.mem_cons_of_mem _ hd)
        refine ⟨k + 1, ?_⟩
        rw [value_cons_zero, List.replicate_succ, List.cons_append, ← hk]
    · exact ⟨0, (numeral_value_of_head hdigits hc).symm⟩

end Library.Decimal
