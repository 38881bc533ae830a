-- SUMMARY: The numbers that the reader takes for integers.
import NetworkEtc.Json.Tokens

/-!
# Integers

A number of digits alone, with or without a minus sign, is an integer if it fits in 64 bits.
`decodeDigits` finds out digit by digit, before anything overflows.
-/

namespace Json

open Library Library.Printf Library.Decimal

variable {δ : Type} {ds t : List UInt8} {maxIntegerValue value value' : UInt64} {v : Value δ}

/-- An integer with its numeral. -/
inductive IsInteger : List UInt8 → Int → Prop where
  | plain {ds : List UInt8} (hds : Digits ds) (hlt : Decimal.value ds < 2 ^ 64) :
    IsInteger ds (Decimal.value ds)
  | minus {ds : List UInt8} (hds : Digits ds) (hle : Decimal.value ds ≤ 2 ^ 63) :
    IsInteger (ascii '-' :: ds) (-Decimal.value ds)

/-- The value of an integer: an `Int`, up to `maxInt`. -/
def ofInteger (n : Int) : Value δ :=
  if n ≤ 0x7FFFFFFF then .int (Int64.ofInt n) else .uint (UInt64.ofNat n.toNat)

-- ---------------------------------------------------------------------------
-- Digits
-- ---------------------------------------------------------------------------

theorem le_foldl_digits (ds : List UInt8) (n : Nat) :
    n ≤ ds.foldl (fun n c => n * 10 + digit c) n := by
  induction ds generalizing n with
  | nil => exact le_rfl
  | cons c ds ih =>
    refine le_trans ?_ (ih (n * 10 + digit c))
    omega

/-- The number of a digit, as the reader computes it. -/
theorem toNat_digit {c : UInt8} (hc : ascii '0' ≤ c) :
    (c - ascii '0').toUInt64.toNat = digit c := by
  rw [UInt8.toNat_toUInt64, UInt8.toNat_sub_of_le _ _ hc]
  rfl

theorem toNat_next {c : UInt8} {value : UInt64} (hc : ascii '0' ≤ c)
    (h : value.toNat * 10 + digit c < 2 ^ 64) :
    (value * 10 + (c - ascii '0').toUInt64).toNat = value.toNat * 10 + digit c := by
  have hten : (10 : UInt64).toNat = 10 := rfl
  rw [UInt64.toNat_add, UInt64.toNat_mul, toNat_digit hc, hten]
  omega

theorem decodeDigits_of_le (hmax : 10 ≤ maxIntegerValue.toNat) (hds : Digits ds) (value : UInt64)
    (h : ds.foldl (fun n c => n * 10 + digit c) value.toNat ≤ maxIntegerValue.toNat) :
    ∃ v, decodeDigits maxIntegerValue ds value = some v ∧
      v.toNat = ds.foldl (fun n c => n * 10 + digit c) value.toNat := by
  induction ds generalizing value with
  | nil => exact ⟨value, rfl, rfl⟩
  | cons c ds ih =>
    obtain ⟨hc, hds⟩ := List.forall_mem_cons.mp hds
    obtain ⟨hlow, hhigh⟩ := isDigit_iff.mp hc
    rw [List.foldl_cons] at h ⊢
    have hle := (le_foldl_digits ds (value.toNat * 10 + digit c)).trans h
    have hascii : (ascii '0').toNat = 48 := rfl
    have hzero : ascii '0' ≤ c := UInt8.le_iff_toNat_le.mpr (hascii ▸ hlow)
    have hnext := toNat_next hzero (hle.trans_lt maxIntegerValue.toNat_lt)
    have hsmall : ¬ (maxIntegerValue / 10 ≤ value ∧ (maxIntegerValue / 10 < value ∨ ds ≠ [] ∨
        maxIntegerValue % 10 < (c - ascii '0').toUInt64)) := by
      have hdiv : (maxIntegerValue / 10).toNat = maxIntegerValue.toNat / 10 := UInt64.toNat_div _ _
      have hmod : (maxIntegerValue % 10).toNat = maxIntegerValue.toNat % 10 := UInt64.toNat_mod _ _
      rw [UInt64.le_iff_toNat_le, UInt64.lt_iff_toNat_lt, UInt64.lt_iff_toNat_lt, hdiv, hmod,
        toNat_digit hzero]
      rintro ⟨hge, hgt | hmore | hlast⟩
      · omega
      · obtain ⟨c', ds, rfl⟩ := List.exists_cons_of_ne_nil hmore
        have hmore : (value.toNat * 10 + digit c) * 10 + digit c' ≤ maxIntegerValue.toNat :=
          (le_foldl_digits ds _).trans h
        omega
      · omega
    have hrange : ¬ (c < ascii '0' ∨ ascii '9' < c) := by
      have hnine : (ascii '9').toNat = 57 := rfl
      rw [UInt8.lt_iff_toNat_lt, UInt8.lt_iff_toNat_lt, hascii, hnine]
      omega
    rw [decodeDigits, if_neg hrange]
    dsimp only
    rw [if_neg hsmall]
    rw [← hnext] at h ⊢
    exact ih hds _ h

/-- What is read is the number of the digits, and is not too big. -/
theorem of_decodeDigits (hvalue : value ≤ maxIntegerValue)
    (h : decodeDigits maxIntegerValue ds value = some value') :
    Digits ds ∧ value'.toNat = ds.foldl (fun n c => n * 10 + digit c) value.toNat ∧
      value' ≤ maxIntegerValue := by
  induction ds generalizing value with
  | nil =>
    cases h
    exact ⟨List.forall_mem_nil _, rfl, hvalue⟩
  | cons c current ih =>
    rw [decodeDigits] at h
    split at h
    · cases h
    · next hdigit =>
      dsimp only at h
      split at h
      · cases h
      · next hnot =>
        obtain ⟨hlow, hhigh⟩ := not_or.mp hdigit
        have hzero : ascii '0' ≤ c := UInt8.not_lt.mp hlow
        have hascii : (ascii '0').toNat = 48 := rfl
        have hascii' : (ascii '9').toNat = 57 := rfl
        rw [UInt8.lt_iff_toNat_lt, hascii'] at hhigh
        have hc : isDigit c = true := by
          rw [UInt8.le_iff_toNat_le, hascii] at hzero
          exact isDigit_iff.mpr ⟨hzero, by omega⟩
        have hnine : digit c ≤ 9 := by
          unfold digit
          omega
        have hsmall : maxIntegerValue / 10 ≤ value →
            ¬ maxIntegerValue / 10 < value ∧ ¬ maxIntegerValue % 10 < (c - ascii '0').toUInt64 :=
          fun hle => ⟨fun hgt => hnot ⟨hle, Or.inl hgt⟩, fun hgt => hnot ⟨hle, Or.inr (Or.inr hgt)⟩⟩
        have hdiv : (maxIntegerValue / 10).toNat = maxIntegerValue.toNat / 10 := UInt64.toNat_div _ _
        have hmod : (maxIntegerValue % 10).toNat = maxIntegerValue.toNat % 10 := UInt64.toNat_mod _ _
        simp only [UInt64.le_iff_toNat_le, UInt64.lt_iff_toNat_lt, hdiv, hmod, toNat_digit hzero]
          at hsmall
        have hfits : value.toNat * 10 + digit c ≤ maxIntegerValue.toNat := by omega
        have hnext := toNat_next hzero (hfits.trans_lt maxIntegerValue.toNat_lt)
        obtain ⟨hds, hfold, hle⟩ := ih (by rw [UInt64.le_iff_toNat_le, hnext]; exact hfits) h
        refine ⟨List.forall_mem_cons.mpr ⟨hc, hds⟩, ?_, hle⟩
        rw [hfold, hnext, List.foldl_cons]

/-- Digits are read to their number, if it is not too big. -/
theorem decodeDigits_iff (hmax : 10 ≤ maxIntegerValue.toNat) :
    decodeDigits maxIntegerValue ds 0 = some value ↔ Digits ds ∧
      Decimal.value ds = value.toNat ∧ value ≤ maxIntegerValue := by
  constructor
  · intro h
    obtain ⟨hds, hvalue, hle⟩ := of_decodeDigits UInt64.zero_le h
    exact ⟨hds, hvalue.symm, hle⟩
  · rintro ⟨hds, hvalue, hle⟩
    obtain ⟨v, hv, heq⟩ := decodeDigits_of_le hmax hds 0
      (by
        change Decimal.value ds ≤ _
        rw [hvalue]
        exact UInt64.le_iff_toNat_le.mp hle)
    rw [hv, UInt64.toNat_inj.mp (heq.trans hvalue)]

-- ---------------------------------------------------------------------------
-- Integers
-- ---------------------------------------------------------------------------

theorem decodeInteger_minus (t : List UInt8) :
    decodeInteger (δ := δ) (ascii '-' :: t) =
      (decodeDigits 0x8000000000000000 t 0).map fun value => .int (-value.toInt64) := rfl

/-- The value that an integer in a document has. -/
def ofUInt64 (n : UInt64) : Value δ := if n ≤ maxInt then .int n.toInt64 else .uint n

theorem decodeInteger_of_ne {t : List UInt8} (h : t.headD 0 ≠ ascii '-') :
    decodeInteger (δ := δ) t = (decodeDigits 0xFFFFFFFFFFFFFFFF t 0).map ofUInt64 := by
  unfold decodeInteger
  dsimp only
  rw [if_neg h, if_neg h]
  exact congrArg (Option.map · _) (funext fun value => if_neg h)

theorem ofInt_toNat (value : UInt64) : Int64.ofInt value.toNat = value.toInt64 := by
  rw [Int64.ofInt_eq_ofNat, ← UInt64.toInt64_ofNat', UInt64.ofNat_toNat]

theorem ofInteger_minus (value : UInt64) :
    (ofInteger (-value.toNat) : Value δ) = .int (-value.toInt64) := by
  rw [ofInteger, if_pos (by omega), Int64.ofInt_neg, ofInt_toNat]

theorem ofInteger_plain (value : UInt64) : (ofInteger value.toNat : Value δ) = ofUInt64 value := by
  have hmax : value ≤ maxInt ↔ (value.toNat : Int) ≤ 0x7FFFFFFF := by
    rw [UInt64.le_iff_toNat_le, show maxInt.toNat = 0x7FFFFFFF from rfl]
    omega
  rw [ofInteger, ofUInt64, ofInt_toNat, Int.toNat_natCast, UInt64.ofNat_toNat]
  exact if_congr hmax.symm rfl rfl

theorem Digits.headD_ne (hds : Digits ds) : ds.headD 0 ≠ ascii '-' := by
  intro hhead
  cases ds with
  | nil => exact absurd hhead (by decide)
  | cons c ds =>
    obtain rfl : c = ascii '-' := hhead
    exact absurd (hds _ List.mem_cons_self) (by decide)

/-- A number is read as an integer if it is one. -/
theorem decodeInteger_iff : decodeInteger t = some v ↔ ∃ n, IsInteger t n ∧ v = ofInteger n := by
  constructor
  · intro h
    by_cases hminus : t.headD 0 = ascii '-'
    · obtain ⟨ds, rfl⟩ : ∃ ds, t = ascii '-' :: ds := by
        cases t with
        | nil => exact absurd hminus (by decide)
        | cons c ds => exact ⟨ds, congrArg (· :: ds) hminus⟩
      rw [decodeInteger_minus] at h
      obtain ⟨value, hvalue, rfl⟩ := Option.map_eq_some_iff.mp h
      obtain ⟨hds, heq, hle⟩ := (decodeDigits_iff (by decide)).mp hvalue
      refine ⟨-value.toNat, ?_, (ofInteger_minus value).symm⟩
      rw [← heq]
      exact .minus hds (heq ▸ UInt64.le_iff_toNat_le.mp hle)
    · rw [decodeInteger_of_ne hminus] at h
      obtain ⟨value, hvalue, rfl⟩ := Option.map_eq_some_iff.mp h
      obtain ⟨hds, heq, -⟩ := (decodeDigits_iff (by decide)).mp hvalue
      refine ⟨value.toNat, ?_, (ofInteger_plain value).symm⟩
      rw [← heq]
      exact .plain hds (heq ▸ value.toNat_lt)
  · rintro ⟨n, hn, rfl⟩
    cases hn with
    | plain hds hlt =>
      have heq := (UInt64.toNat_ofNat_of_lt' hlt).symm
      have hle : UInt64.ofNat (Decimal.value t) ≤ 0xFFFFFFFFFFFFFFFF :=
        UInt64.le_iff_toNat_le.mpr (Nat.le_of_lt_succ (UInt64.toNat_lt _))
      rw [decodeInteger_of_ne hds.headD_ne, (decodeDigits_iff (by decide)).mpr ⟨hds, heq, hle⟩,
        Option.map_some, ← ofInteger_plain, ← heq]
    | @minus ds hds hle =>
      have heq := (UInt64.toNat_ofNat_of_lt' (hle.trans_lt (by decide))).symm
      have hle : UInt64.ofNat (Decimal.value ds) ≤ 0x8000000000000000 :=
        UInt64.le_iff_toNat_le.mpr (heq ▸ hle)
      rw [decodeInteger_minus, (decodeDigits_iff (by decide)).mpr ⟨hds, heq, hle⟩,
        Option.map_some, ← ofInteger_minus, ← heq]

theorem decodeInteger_eq_none : decodeInteger (δ := δ) t = none ↔ ∀ n, ¬ IsInteger t n := by
  rw [Option.eq_none_iff_forall_ne_some]
  constructor
  · intro h n hn
    exact h (ofInteger n) (decodeInteger_iff.mpr ⟨n, hn, rfl⟩)
  · intro h v hv
    obtain ⟨n, hn, -⟩ := decodeInteger_iff.mp hv
    exact h n hn

end Json
