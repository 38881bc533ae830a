-- SUMMARY: The part of `snprintf` that prints characters and unsigned decimals.
import NetworkEtc.Library.Decimal

/-!
# `snprintf`

Formats with the directives `%c`, `%u` and `%llu`. A directive without an argument
of its type is left open by the C standard; here it prints nothing.
-/

namespace Library.Printf

open Library

/-- The byte of an ASCII character. -/
def ascii (c : Char) : UInt8 := UInt8.ofNat c.toNat

inductive Arg where
  | char (c : UInt8)
  | unsigned (u : UInt32)
  | unsignedLongLong (u : UInt64)

/-- The text a format and its arguments describe. -/
def text : List Char → List Arg → List UInt8
  | '%' :: 'c' :: format, .char c :: args => c :: text format args
  | '%' :: 'u' :: format, .unsigned u :: args => Decimal.numeral u.toNat ++ text format args
  | '%' :: 'l' :: 'l' :: 'u' :: format, .unsignedLongLong u :: args =>
    Decimal.numeral u.toNat ++ text format args
  | '%' :: format, args => text format args
  | c :: format, args => ascii c :: text format args
  | [], _ => []

/-- Write `bytes` into `memory` from `offset` on. -/
def store (memory : List UInt8) (offset : Nat) (bytes : List UInt8) : List UInt8 :=
  memory.take offset ++ bytes ++ memory.drop (offset + bytes.length)

/-- `snprintf` to `memory + offset`: at most `size` bytes are written, the last of
them a zero, and the length of the whole text is returned. -/
def snprintf (memory : List UInt8) (offset size : Nat) (format : List Char) (args : List Arg) :
    List UInt8 × Nat :=
  let line := text format args
  (if size = 0 then memory else store memory offset (line.take (size - 1) ++ [0]), line.length)

/-- `snprintf` of a line that is known. -/
def snprintfLine (memory : List UInt8) (offset size : Nat) (line : List UInt8) :
    List UInt8 × Nat :=
  (if size = 0 then memory else store memory offset (line.take (size - 1) ++ [0]), line.length)

/-! # What is in the memory -/

section

variable {memory bytes line : List UInt8} {offset limit n : Nat}

theorem length_store_max (bytes : List UInt8) (h : offset ≤ memory.length) :
    (store memory offset bytes).length = max memory.length (offset + bytes.length) := by
  simp only [store, List.length_append, List.length_take, List.length_drop]
  omega

theorem take_store (hn : n ≤ offset) (h : offset ≤ memory.length) :
    (store memory offset bytes).take n = memory.take n := by
  rw [store, List.append_assoc, List.take_append_of_le_length (by rw [List.length_take]; omega),
    List.take_take, Nat.min_eq_left hn]

/-- A line that is too long ends where its room ends. -/
theorem length_snprintfLine (line : List UInt8) (limit : Nat) (h : offset ≤ memory.length) :
    (snprintfLine memory offset limit line).1.length =
      max memory.length (offset + min (line.length + 1) limit) := by
  unfold snprintfLine
  split
  · rename_i hlimit
    rw [hlimit, Nat.min_zero, Nat.add_zero, Nat.max_eq_left h]
  · rename_i hlimit
    rw [length_store_max _ h, List.length_append, List.length_take, List.length_singleton]
    congr 2
    omega

theorem take_snprintfLine (line : List UInt8) (limit : Nat) (hn : n ≤ offset)
    (h : offset ≤ memory.length) :
    (snprintfLine memory offset limit line).1.take n = memory.take n := by
  unfold snprintfLine
  split
  · rfl
  · exact take_store hn h

theorem take_snprintfLine_of_lt (hfits : line.length < limit) (h : offset ≤ memory.length) :
    (snprintfLine memory offset limit line).1.take (offset + line.length) =
      memory.take offset ++ line := by
  have htake : (memory.take offset ++ line).length = offset + line.length := by
    rw [List.length_append, List.length_take, Nat.min_eq_left h]
  rw [snprintfLine, if_neg (Nat.ne_of_gt (Nat.zero_lt_of_lt hfits)), store,
    List.take_of_length_le (Nat.le_sub_one_of_lt hfits), ← List.append_assoc (memory.take offset),
    List.append_assoc _ [0], ← htake, List.take_left]

end

/-- A line that fits is found where it was written. -/
theorem take_drop_snprintfLine (memory : List UInt8) (offset size : Nat) (line : List UInt8)
    (hfit : line.length < size) (hoff : offset ≤ memory.length) :
    ((snprintfLine memory offset size line).1.drop offset).take line.length = line := by
  have hsize : size ≠ 0 := by omega
  have htake : line.take (size - 1) = line := List.take_of_length_le (by omega)
  simp [snprintfLine, store, hsize, htake, hoff]

/-- A text that fits is found where it was written. -/
theorem take_drop_snprintf (memory : List UInt8) (offset size : Nat) (format : List Char)
    (args : List Arg) (hfit : (text format args).length < size) (hoff : offset ≤ memory.length) :
    ((snprintf memory offset size format args).1.drop offset).take (text format args).length =
      text format args :=
  take_drop_snprintfLine memory offset size (text format args) hfit hoff

end Library.Printf
