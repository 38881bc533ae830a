-- SUMMARY: The number readers and the format reader of the framework, and what they make of decimal text.
import NetworkEtc.Netfram.Memblock

/-!
# `strntoint64`, `strntouint64` and `snreadf`

A buffer is the memory from a pointer on; it may go on behind the `length` bytes
the functions are allowed to look at. The loops also fetch the byte after the last
one they use, and never look at what they fetched.
-/

namespace Netfram

open Library Library.Decimal Library.Printf

/-- The digit loop both readers share: take digits while there are any among the
first `length` bytes, and count them. -/
def digitLoop {α : Type} (push : α → UInt8 → α) (length : Nat) :
    α → Nat → List UInt8 → α × Nat
  | n, i, [] => (n, i)
  | n, i, c :: rest =>
    if i < length ∧ isDigit c = true then digitLoop push length (push n c) (i + 1) rest
    else (n, i)

/-- The number, modulo `2 ^ 64`, and how many bytes it took. -/
def strntouint64 (buffer : List UInt8) (length : Int32) : UInt64 × Nat :=
  if length < 1 then (0, 0)
  else
    digitLoop (fun n c => n * 10 + UInt64.ofNat (digit c)) length.toInt.toNat 0 0 buffer

/-- The overflow of a signed number, undefined in C, is taken as wrapping. -/
def strntoint64 (buffer : List UInt8) (length : Int32) : Int64 × Nat :=
  if length < 1 then (0, 0)
  else
    let push (n : Int64) (c : UInt8) : Int64 := n * 10 + Int64.ofNat (digit c)
    match buffer with
    | 45 :: rest => -- a minus sign
      let r := digitLoop push length.toInt.toNat 0 1 rest
      if r.2 = 1 then (0, 0) else (-r.1, r.2)
    | buffer => digitLoop push length.toInt.toNat 0 0 buffer

/-- What `vsnreadf` stores through one of its pointer arguments. -/
inductive Value where
  | char (c : UInt8)
  | int (d : Int32)
  | unsigned (u : UInt32)
  | int64 (i : Int64)
  | uint64 (u : UInt64)
  /-- `bs->Write` of the bytes -/
  | write (body : List UInt8)
  /-- `bs->Init` on the bytes, in place -/
  | init (body : List UInt8)
  deriving DecidableEq

/-- The length prefix, the colon and the body of a `%M` or `%N`: the body, and how
many bytes all three take. -/
def readPrefixed (buffer : List UInt8) (length : UInt32) (space : Option Nat) :
    Option (List UInt8 × Nat) :=
  let (liSize, n) := strntouint64 buffer length.toInt32
  if n < 1 then none
  else if space.any (· < liSize.toNat) then none
  else if length.toNat < n + 1 then none
  else if (buffer.drop n).head? ≠ some (ascii ':') then none
  else if length.toNat - (n + 1) < liSize.toNat then none
  else some ((buffer.drop (n + 1)).take liSize.toNat, n + 1 + liSize.toNat)

/-- Put a stored value in front of those stored after it. -/
def stored (v : Value) (r : Option (Int × List Value)) : Option (Int × List Value) :=
  r.map fun (read, values) => (read, v :: values)

/-- The number of bytes read, or `-1`, and what was stored, in order. `spaces` are
the `GetDirectSpace` of the blocks for `%M`. A directive that is not known fails
an assertion: `none`. -/
def vsnreadf : (format : List Char) → (spaces : List Nat) → (buffer : List UInt8) →
    (length : UInt32) → (read : Int) → Option (Int × List Value)
  | [], _, _, _, read => some (read, [])
  | ['%'], _, _, _, _ => some (-1, []) -- `%` cannot be at the end of the format string
  | '%' :: '%' :: format, spaces, buffer, length, read =>
    if length < 1 then some (-1, [])
    else if buffer.head? ≠ some (ascii '%') then some (-1, [])
    else vsnreadf format spaces (buffer.drop 1) (length - 1) (read + 1)
  | '%' :: 'c' :: format, spaces, buffer, length, read =>
    if length < 1 then some (-1, [])
    else
      stored (.char (buffer.headD 0))
        (vsnreadf format spaces (buffer.drop 1) (length - 1) (read + 1))
  | '%' :: 'd' :: format, spaces, buffer, length, read =>
    let (v, n) := strntoint64 buffer length.toInt32
    stored (.int v.toInt32)
      (if n < 1 then some (-1, [])
      else vsnreadf format spaces (buffer.drop n) (length - UInt32.ofNat n) (read + n))
  | '%' :: 'u' :: format, spaces, buffer, length, read =>
    let (v, n) := strntouint64 buffer length.toInt32
    stored (.unsigned v.toUInt32)
      (if n < 1 then some (-1, [])
      else vsnreadf format spaces (buffer.drop n) (length - UInt32.ofNat n) (read + n))
  | '%' :: 'I' :: format, spaces, buffer, length, read =>
    let (v, n) := strntoint64 buffer length.toInt32
    stored (.int64 v)
      (if n < 1 then some (-1, [])
      else vsnreadf format spaces (buffer.drop n) (length - UInt32.ofNat n) (read + n))
  | '%' :: 'U' :: format, spaces, buffer, length, read =>
    let (v, n) := strntouint64 buffer length.toInt32
    stored (.uint64 v)
      (if n < 1 then some (-1, [])
      else vsnreadf format spaces (buffer.drop n) (length - UInt32.ofNat n) (read + n))
  | '%' :: 'M' :: format, spaces, buffer, length, read =>
    match readPrefixed buffer length spaces.head? with
    | none => some (-1, [])
    | some (body, n) =>
      stored (.write body) (vsnreadf format spaces.tail (buffer.drop n)
        (length - UInt32.ofNat n) (read + n))
  | '%' :: 'N' :: format, spaces, buffer, length, read =>
    match readPrefixed buffer length none with
    | none => some (-1, [])
    | some (body, n) =>
      stored (.init body) (vsnreadf format spaces (buffer.drop n)
        (length - UInt32.ofNat n) (read + n))
  | '%' :: _ :: _, _, _, _, _ => none
  | c :: format, spaces, buffer, length, read =>
    if length < 1 then some (-1, [])
    else if buffer.head? ≠ some (ascii c) then some (-1, [])
    else vsnreadf format spaces (buffer.drop 1) (length - 1) (read + 1)

def snreadf (buffer : List UInt8) (length : UInt32) (format : String) (spaces : List Nat) :
    Option (Int × List Value) :=
  vsnreadf format.toList spaces buffer length 0

-- ---------------------------------------------------------------------------
-- The digit loop
-- ---------------------------------------------------------------------------

theorem digitLoop_eq {α : Type} (push : α → UInt8 → α) (length : Nat) (n : α) (i : Nat)
    (buffer : List UInt8) :
    digitLoop push length n i buffer =
      (((buffer.take (length - i)).takeWhile isDigit).foldl push n,
        i + ((buffer.take (length - i)).takeWhile isDigit).length) := by
  induction buffer generalizing n i with
  | nil => simp [digitLoop]
  | cons c rest ih =>
    unfold digitLoop
    split
    · rename_i h
      obtain ⟨hi, hc⟩ := h
      obtain ⟨k, hk⟩ : ∃ k, length - i = k + 1 := ⟨length - i - 1, by omega⟩
      have hk' : length - (i + 1) = k := by omega
      rw [ih, hk, hk', List.take_succ_cons, List.takeWhile_cons_of_pos hc]
      simp only [List.foldl_cons, List.length_cons]
      congr 1
      omega
    · rename_i h
      by_cases hi : i < length
      · have hc : ¬ isDigit c = true := fun hc => h ⟨hi, hc⟩
        obtain ⟨k, hk⟩ : ∃ k, length - i = k + 1 := ⟨length - i - 1, by omega⟩
        simp [hk, List.takeWhile_cons_of_neg hc]
      · have hzero : length - i = 0 := by omega
        simp [hzero]

/-- Pushing digits in 64 bits is reading the number modulo `2 ^ 64`. -/
theorem foldl_push (ds : List UInt8) (n : Nat) :
    ds.foldl (fun n c => n * 10 + UInt64.ofNat (digit c)) (UInt64.ofNat n) =
      UInt64.ofNat (ds.foldl (fun n c => n * 10 + digit c) n) := by
  induction ds generalizing n with
  | nil => rfl
  | cons c ds ih =>
    have hpush : UInt64.ofNat n * 10 + UInt64.ofNat (digit c) = UInt64.ofNat (n * 10 + digit c) := by
      simp
    rw [List.foldl_cons, List.foldl_cons, hpush, ih]

/-- The digits a reader finds at the front of the first `length` bytes. -/
def leadingDigits (buffer : List UInt8) (length : Nat) : List UInt8 :=
  (buffer.take length).takeWhile isDigit

theorem strntouint64_eq {buffer : List UInt8} {length : Int32} (h : ¬ length < 1) :
    strntouint64 buffer length =
      (UInt64.ofNat (value (leadingDigits buffer length.toInt.toNat)),
        (leadingDigits buffer length.toInt.toNat).length) := by
  have hzero : (0 : UInt64) = UInt64.ofNat 0 := rfl
  rw [strntouint64, if_neg h, digitLoop_eq, hzero, foldl_push]
  simp only [Nat.sub_zero, Nat.zero_add]
  rfl

theorem toInt32_toInt {x : UInt32} (h : x.toNat < 2 ^ 31) : x.toInt32.toInt = x.toNat := by
  have hcast : x.toInt32.toInt = x.toBitVec.toInt := rfl
  have hnat : x.toBitVec.toNat = x.toNat := rfl
  rw [hcast, BitVec.toInt_eq_toNat_of_lt (by omega), hnat]

/-- A length that is positive as an `int` is the `unsigned` it came from. -/
theorem toNat_lt_of_toInt32 {x : UInt32} (h : ¬ x.toInt32 < 1) :
    0 < x.toNat ∧ x.toNat < 2 ^ 31 := by
  have hcast : x.toInt32.toInt = x.toBitVec.toInt := rfl
  have hnat : x.toBitVec.toNat = x.toNat := rfl
  have hone : (1 : Int32).toInt = 1 := rfl
  have hlt := x.toNat_lt
  rw [Int32.lt_iff_toInt_lt, hcast, BitVec.toInt_eq_toNat_cond, hone] at h
  split at h <;> omega

theorem toNat_sub_ofNat {x : UInt32} {n : Nat} (h : n ≤ x.toNat) :
    (x - UInt32.ofNat n).toNat = x.toNat - n := by
  have hlt := x.toNat_lt
  have hn : (UInt32.ofNat n).toNat = n :=
    UInt32.toNat_ofNat_of_lt' (by simp only [UInt32.size]; omega)
  rw [UInt32.toNat_sub_of_le _ _ (by rw [UInt32.le_iff_toNat_le, hn]; exact h), hn]

theorem toNat_sub_one {x : UInt32} (h : 1 ≤ x.toNat) : (x - 1).toNat = x.toNat - 1 :=
  toNat_sub_ofNat h

theorem leadingDigits_isDigit (buffer : List UInt8) (length : Nat) :
    ∀ c ∈ leadingDigits buffer length, isDigit c = true :=
  fun _ hc => List.all_eq_true.mp List.all_takeWhile _ hc

theorem leadingDigits_initial (buffer : List UInt8) (length : Nat) :
    leadingDigits buffer length <+: buffer :=
  (List.takeWhile_prefix _).trans (List.take_prefix _ _)

theorem length_leadingDigits_le (buffer : List UInt8) (length : Nat) :
    (leadingDigits buffer length).length ≤ length :=
  (List.takeWhile_prefix _).length_le.trans (List.length_take_le _ _)

/-- A digit string that the end of the buffer or a byte that is no digit follows is
found whole. -/
theorem leadingDigits_append {ds rest : List UInt8} {length : Nat}
    (hds : ∀ c ∈ ds, isDigit c = true) (hlen : ds.length ≤ length)
    (hrest : ∀ c ∈ (rest.take (length - ds.length)).head?, isDigit c = false) :
    leadingDigits (ds ++ rest) length = ds := by
  rw [leadingDigits, List.take_append, List.take_of_length_le hlen,
    List.takeWhile_append_of_pos hds]
  generalize rest.take (length - ds.length) = tail at hrest
  cases tail with
  | nil => simp
  | cons c tail =>
    have hc : ¬ isDigit c = true := by simp [hrest c (by simp)]
    rw [List.takeWhile_cons_of_neg hc, List.append_nil]

-- ---------------------------------------------------------------------------
-- Numbers set off by colons
-- ---------------------------------------------------------------------------

/-- The two kinds of unsigned numbers a message holds. -/
inductive Width where
  | w32
  | w64
  deriving DecidableEq

namespace Width

/-- What `snreadf` calls a number of this width, after a colon. -/
def readFormat : Width → List Char
  | w32 => [':', '%', 'u']
  | w64 => [':', '%', 'U']

/-- How many numbers there are of this width. -/
def modulus : Width → Nat
  | w32 => 2 ^ 32
  | w64 => 2 ^ 64

/-- What is stored for a number, cut to the width. -/
def stored : Width → Nat → Value
  | w32, n => .unsigned (UInt32.ofNat n)
  | w64, n => .uint64 (UInt64.ofNat n)

end Width

/-- Numerals, each after a colon. -/
def fieldsText (numerals : List (List UInt8)) : List UInt8 :=
  numerals.flatMap fun ds => ascii ':' :: ds

@[simp] theorem fieldsText_nil : fieldsText [] = [] := rfl

@[simp] theorem fieldsText_cons (ds : List UInt8) (numerals : List (List UInt8)) :
    fieldsText (ds :: numerals) = ascii ':' :: ds ++ fieldsText numerals := rfl

section Fields

variable {w : Width} {ws : List Width} {format : List Char} {spaces : List Nat}
  {buffer ds rest : List UInt8} {length : UInt32} {read r : Int} {values : List Value}

theorem vsnreadf_colon :
    vsnreadf (':' :: format) spaces buffer length read =
      if length < 1 then some (-1, [])
      else if buffer.head? ≠ some (ascii ':') then some (-1, [])
      else vsnreadf format spaces (buffer.drop 1) (length - 1) (read + 1) := by
  rw [vsnreadf] <;> simp

theorem vsnreadf_field :
    vsnreadf (w.readFormat ++ format) spaces buffer length read =
      if length < 1 then some (-1, [])
      else if buffer.head? ≠ some (ascii ':') then some (-1, [])
      else
        stored (w.stored (strntouint64 (buffer.drop 1) (length - 1).toInt32).1.toNat)
          (if (strntouint64 (buffer.drop 1) (length - 1).toInt32).2 < 1 then some (-1, [])
          else
            vsnreadf format spaces
              ((buffer.drop 1).drop (strntouint64 (buffer.drop 1) (length - 1).toInt32).2)
              (length - 1 -
                UInt32.ofNat (strntouint64 (buffer.drop 1) (length - 1).toInt32).2)
              (read + 1 + (strntouint64 (buffer.drop 1) (length - 1).toInt32).2)) := by
  cases w with
  | w32 =>
    rw [Width.readFormat, List.cons_append, vsnreadf_colon, List.cons_append, List.cons_append,
      List.nil_append, vsnreadf, Width.stored]
    simp only [UInt32.ofNat_uInt64ToNat]
  | w64 =>
    rw [Width.readFormat, List.cons_append, vsnreadf_colon, List.cons_append, List.cons_append,
      List.nil_append, vsnreadf, Width.stored]
    simp only [UInt64.ofNat_toNat]

/-- The reader keeps 64 bits of the number, and no width has more. -/
theorem Width.stored_ofNat (n : Nat) : w.stored (UInt64.ofNat n).toNat = w.stored n := by
  have hmod : (UInt64.ofNat n).toNat = n % 2 ^ 64 := UInt64.toNat_ofNat
  cases w with
  | w32 =>
    have hcut : UInt32.ofNat (n % 2 ^ 64) = UInt32.ofNat n := by
      refine UInt32.toNat_inj.mp ?_
      simp only [UInt32.toNat_ofNat']
      omega
    simp only [Width.stored, hmod, hcut]
  | w64 => simp only [Width.stored, UInt64.ofNat_toNat]

/-- What follows when a field is read: a colon, a numeral, and the rest. -/
theorem vsnreadf_field_inv
    (h : vsnreadf (w.readFormat ++ format) spaces buffer length read = some (r, values))
    (hr : r ≠ -1) :
    ∃ ds rest values', IsNumeral ds ∧ buffer = ascii ':' :: ds ++ rest ∧
      ds.length + 1 ≤ length.toNat ∧ values = w.stored (value ds) :: values' ∧
      vsnreadf format spaces rest (length - 1 - UInt32.ofNat ds.length) (read + 1 + ds.length) =
        some (r, values') := by
  rw [vsnreadf_field] at h
  split at h
  · cases h
    exact absurd rfl hr
  rename_i hlen
  split at h
  · cases h
    exact absurd rfl hr
  rename_i hcolon
  obtain ⟨tail, rfl⟩ : ∃ tail, buffer = ascii ':' :: tail := by
    cases buffer with
    | nil => simp at hcolon
    | cons c tail => exact ⟨tail, by simpa using hcolon⟩
  have hone : 1 ≤ length.toNat := by
    rw [UInt32.lt_iff_toNat_lt] at hlen
    exact Nat.not_lt.mp hlen
  simp only [List.drop_one, List.tail_cons, stored, Option.map_eq_some_iff] at h
  obtain ⟨⟨r', values'⟩, h, heq⟩ := h
  obtain ⟨rfl, rfl⟩ := Prod.mk.inj heq
  split at h
  · cases h
    exact absurd rfl hr
  rename_i hn
  -- A length that is not positive as an `int` reads no digit.
  have hpos : ¬ (length - 1).toInt32 < 1 := by
    intro hneg
    rw [strntouint64, if_pos hneg] at hn
    exact hn Nat.zero_lt_one
  obtain ⟨-, hsmall⟩ := toNat_lt_of_toInt32 hpos
  rw [strntouint64_eq hpos, toInt32_toInt hsmall, Int.toNat_natCast, toNat_sub_one hone] at h hn ⊢
  have hle := length_leadingDigits_le tail (length.toNat - 1)
  refine ⟨leadingDigits tail (length.toNat - 1),
    tail.drop (leadingDigits tail (length.toNat - 1)).length, values', ⟨?_, ?_⟩, ?_, ?_, ?_, h⟩
  · intro hnil
    simp [hnil] at hn
  · exact leadingDigits_isDigit _ _
  · have happ := List.prefix_iff_eq_append.mp (leadingDigits_initial tail (length.toNat - 1))
    rw [List.cons_append, happ]
  · omega
  · rw [Width.stored_ofNat]

/-- A field is read when it is there. -/
theorem vsnreadf_field_of (hds : IsNumeral ds) (hlen : ds.length + 1 ≤ length.toNat)
    (hsmall : length.toNat < 2 ^ 31)
    (hrest : ∀ c ∈ (rest.take (length.toNat - 1 - ds.length)).head?, isDigit c = false) :
    vsnreadf (w.readFormat ++ format) spaces (ascii ':' :: ds ++ rest) length read =
      stored (w.stored (value ds)) (vsnreadf format spaces rest
        (length - 1 - UInt32.ofNat ds.length) (read + 1 + ds.length)) := by
  have hone : ¬ length < 1 := by
    have h1 : (1 : UInt32).toNat = 1 := rfl
    rw [UInt32.lt_iff_toNat_lt]
    omega
  have hpos : 0 < ds.length := List.length_pos_iff.mpr hds.1
  have hsub : (length - 1).toNat = length.toNat - 1 := toNat_sub_one (by omega)
  have hint : ¬ (length - 1).toInt32 < 1 := by
    have h1 : (1 : Int32).toInt = 1 := rfl
    rw [Int32.lt_iff_toInt_lt, toInt32_toInt (by omega), h1]
    omega
  have hdigits : leadingDigits (ds ++ rest) (length.toNat - 1) = ds :=
    leadingDigits_append hds.2 (by omega) hrest
  have hread : strntouint64 (ds ++ rest) (length - 1).toInt32 =
      (UInt64.ofNat (value ds), ds.length) := by
    rw [strntouint64_eq hint, toInt32_toInt (by omega), Int.toNat_natCast, hsub, hdigits]
  have hn : ¬ ds.length < 1 := by omega
  rw [vsnreadf_field, if_neg hone]
  simp only [List.cons_append, List.head?_cons, ne_eq, not_true_eq_false, if_false,
    List.drop_one, List.tail_cons, hread, hn, Width.stored_ofNat, List.drop_left]

/-- Whatever a format of fields reads is the numerals it stores, each after a
colon. -/
theorem vsnreadf_sound
    (h : vsnreadf (ws.flatMap Width.readFormat) spaces buffer length read = some (r, values))
    (hr : r ≠ -1) :
    ∃ numerals, numerals.length = ws.length ∧ (∀ ds ∈ numerals, IsNumeral ds) ∧
      fieldsText numerals <+: buffer ∧ r = read + (fieldsText numerals).length ∧
      values = List.zipWith (fun w ds => w.stored (value ds)) ws numerals := by
  induction ws generalizing buffer length read values with
  | nil =>
    obtain ⟨rfl, rfl⟩ : read = r ∧ [] = values := by simpa [vsnreadf] using h
    exact ⟨[], rfl, by simp, List.nil_prefix, by simp, rfl⟩
  | cons w ws ih =>
    rw [List.flatMap_cons] at h
    obtain ⟨ds, rest, values', hds, rfl, -, rfl, h'⟩ := vsnreadf_field_inv h hr
    obtain ⟨numerals, hlength, hnum, hpre, hread, rfl⟩ := ih h'
    refine ⟨ds :: numerals, by simp [hlength], ?_, ?_, ?_, rfl⟩
    · intro ds' hds'
      rcases List.mem_cons.mp hds' with rfl | hds'
      · exact hds
      · exact hnum ds' hds'
    · rw [fieldsText_cons]
      exact (List.prefix_append_right_inj _).mpr hpre
    · rw [hread, fieldsText_cons]
      simp only [List.length_append, List.length_cons]
      omega

/-- Fields that fill the allowed length are read whole. -/
theorem vsnreadf_complete {numerals : List (List UInt8)} (hlength : numerals.length = ws.length)
    (hnum : ∀ ds ∈ numerals, IsNumeral ds) (hlen : length.toNat = (fieldsText numerals).length)
    (hsmall : length.toNat < 2 ^ 31) :
    vsnreadf (ws.flatMap Width.readFormat) spaces (fieldsText numerals ++ rest) length read =
      some (read + (fieldsText numerals).length,
        List.zipWith (fun w ds => w.stored (value ds)) ws numerals) := by
  induction ws generalizing numerals length read with
  | nil =>
    obtain rfl : numerals = [] := List.length_eq_zero_iff.mp hlength
    simp [vsnreadf]
  | cons w ws ih =>
    cases numerals with
    | nil => simp at hlength
    | cons ds numerals =>
      have hlen' : length.toNat = ds.length + 1 + (fieldsText numerals).length := by
        simp only [fieldsText_cons, List.length_append, List.length_cons] at hlen
        exact hlen
      have hsub : (length - 1 - UInt32.ofNat ds.length).toNat = (fieldsText numerals).length := by
        rw [toNat_sub_ofNat] <;> rw [toNat_sub_one] <;> omega
      -- The next byte in reach is the colon of the next field.
      have hnext : ∀ c ∈ ((fieldsText numerals ++ rest).take
          (length.toNat - 1 - ds.length)).head?, isDigit c = false := by
        have htake : length.toNat - 1 - ds.length = (fieldsText numerals).length := by omega
        rw [htake, List.take_left]
        cases numerals with
        | nil => simp
        | cons ds' numerals' =>
          intro c hc
          obtain rfl : ascii ':' = c := by simpa using hc
          decide
      rw [List.flatMap_cons, fieldsText_cons, List.append_assoc,
        vsnreadf_field_of (hnum ds List.mem_cons_self) (by omega) hsmall hnext,
        ih (by simpa using hlength) (fun ds' h => hnum ds' (List.mem_cons_of_mem _ h)) hsub
          (by omega)]
      simp only [stored, Option.map_some, List.zipWith_cons_cons, List.length_append,
        List.length_cons]
      congr 2
      push_cast
      omega

end Fields

-- ---------------------------------------------------------------------------
-- Bytes behind their length
-- ---------------------------------------------------------------------------

section Prefixed

variable {format : List Char} {spaces : List Nat} {ds body rest : List UInt8} {length : UInt32}
  {read : Int}

theorem colon_ends (k : Nat) :
    ∀ c ∈ ((ascii ':' :: rest).take k).head?, isDigit c = false := by
  cases k with
  | zero => simp
  | succ k =>
    intro c hc
    rw [List.take_succ_cons, List.head?_cons, Option.mem_some_iff] at hc
    rw [← hc]
    decide

theorem field_ends (k : Nat) :
    ∀ c ∈ ((ascii ':' :: ds ++ rest).take k).head?, isDigit c = false :=
  colon_ends k

/-- A numeral is read when it is there. -/
theorem strntouint64_of (hds : IsNumeral ds) (hlen : ds.length ≤ length.toNat)
    (hsmall : length.toNat < 2 ^ 31)
    (hrest : ∀ c ∈ (rest.take (length.toNat - ds.length)).head?, isDigit c = false) :
    strntouint64 (ds ++ rest) length.toInt32 = (UInt64.ofNat (value ds), ds.length) := by
  have hpos : 0 < ds.length := List.length_pos_iff.mpr hds.1
  have hint : ¬ length.toInt32 < 1 := by
    have h1 : (1 : Int32).toInt = 1 := rfl
    rw [Int32.lt_iff_toInt_lt, toInt32_toInt hsmall, h1]
    omega
  rw [strntouint64_eq hint, toInt32_toInt hsmall, Int.toNat_natCast,
    leadingDigits_append hds.2 hlen hrest]

/-- The number at the start of a format. -/
theorem vsnreadf_u_of (hds : IsNumeral ds) (hlen : ds.length ≤ length.toNat)
    (hsmall : length.toNat < 2 ^ 31)
    (hrest : ∀ c ∈ (rest.take (length.toNat - ds.length)).head?, isDigit c = false) :
    vsnreadf ('%' :: 'u' :: format) spaces (ds ++ rest) length read =
      stored (.unsigned (UInt32.ofNat (value ds)))
        (vsnreadf format spaces rest (length - UInt32.ofNat ds.length) (read + ds.length)) := by
  have hpos : ¬ ds.length < 1 := by
    have := List.length_pos_iff.mpr hds.1
    omega
  have hcut := Width.stored_ofNat (w := .w32) (value ds)
  simp only [Width.stored, Value.unsigned.injEq, UInt32.ofNat_uInt64ToNat] at hcut
  rw [vsnreadf, strntouint64_of hds hlen hsmall hrest]
  simp only [hpos, if_false, List.drop_left, hcut]

/-- A length, a colon and as many bytes are read when they are there. -/
theorem readPrefixed_of (hlen : (numeral body.length).length + 1 + body.length ≤ length.toNat)
    (hsmall : length.toNat < 2 ^ 31) :
    readPrefixed (numeral body.length ++ ascii ':' :: body ++ rest) length none =
      some (body, (numeral body.length).length + 1 + body.length) := by
  have hnum := numeral_isNumeral body.length
  have hpos := List.length_pos_iff.mpr hnum.1
  have hread : strntouint64 (numeral body.length ++ ascii ':' :: (body ++ rest)) length.toInt32 =
      (UInt64.ofNat (value (numeral body.length)), (numeral body.length).length) :=
    strntouint64_of hnum (by omega) hsmall (colon_ends _)
  have hsize : (UInt64.ofNat body.length).toNat = body.length :=
    UInt64.toNat_ofNat_of_lt' (by simp only [UInt64.size]; omega)
  rw [value_numeral] at hread
  rw [List.append_assoc, List.cons_append, readPrefixed, hread]
  simp only [hsize]
  rw [if_neg (by omega), if_neg (by simp), if_neg (by omega), List.drop_left,
    if_neg (by simp), if_neg (by omega), ← List.drop_drop, List.drop_left]
  simp

/-- A value behind its length is read when it is there. -/
theorem vsnreadf_N_of (hlen : (numeral body.length).length + 1 + body.length ≤ length.toNat)
    (hsmall : length.toNat < 2 ^ 31) :
    vsnreadf ('%' :: 'N' :: format) spaces (numeral body.length ++ ascii ':' :: body ++ rest)
        length read =
      stored (.init body) (vsnreadf format spaces rest
        (length - UInt32.ofNat ((numeral body.length).length + 1 + body.length))
        (read + ((numeral body.length).length + 1 + body.length : Nat))) := by
  have hdrop : (numeral body.length ++ ascii ':' :: body ++ rest).drop
      ((numeral body.length).length + 1 + body.length) = rest := by
    have hcount : (numeral body.length).length + 1 + body.length =
        (numeral body.length ++ ascii ':' :: body).length := by
      simp only [List.length_append, List.length_cons]
      omega
    rw [hcount, List.drop_left]
  rw [vsnreadf, readPrefixed_of hlen hsmall]
  simp only [hdrop]

end Prefixed

end Netfram
