-- SUMMARY: Numbers and vectors of numbers written to a memory block, and read back.
import NetworkEtc.Netfram.ByteQueue

/-!
# The typed `Write` and `Read` of `CMemblock`

The bytes of a number are stored behind the write pointer, and the pointer is moved, by
hand in every function. A plain `char` is signed: a byte that is read is extended by its
sign before it is or-ed into the number.
-/

namespace Netfram

open Library Library.Printf

namespace CMemblock

/-- `mpcWritePt[k] = b` -/
def poke (data : CMemblock) (k : Nat) (b : UInt8) : CMemblock :=
  { data with mpcBase := store data.mpcBase (data.mpcWritePt + k) [b] }

/-- `mpcReadPt[k]`; what lies behind the memory is read as zero. -/
def peek (data : CMemblock) (k : Nat) : UInt8 := data.getRead.getD k 0

-- ---------------------------------------------------------------------------
-- Writing
-- ---------------------------------------------------------------------------

/-- `Write(uint8_t)` -/
def writeU8 (data : CMemblock) (heap : Heap) (au8Num : UInt8) : Option (Nat × CMemblock) :=
  (data.expand heap 1).map fun data => (1, (data.poke 0 au8Num).setWrite 1)

/-- `Write(uint16_t)` -/
def writeU16 (data : CMemblock) (heap : Heap) (au16Num : UInt16) : Option (Nat × CMemblock) :=
  (data.expand heap 2).map fun data =>
    let data := data.poke 1 au16Num.toUInt8
    let au16Num := au16Num >>> 8
    let data := data.poke 0 au16Num.toUInt8
    (2, data.setWrite 2)

/-- `Write(uint32_t)`. The write pointer is moved twice. -/
def writeU32 (data : CMemblock) (heap : Heap) (au32Num : UInt32) : Option (Nat × CMemblock) :=
  (data.expand heap 4).map fun data =>
    let data := data.poke 3 au32Num.toUInt8
    let au32Num := au32Num >>> 8
    let data := data.poke 2 au32Num.toUInt8
    let data := data.setWrite 2
    let data := data.poke 1 au32Num.toUInt8
    let au32Num := au32Num >>> 8
    let data := data.poke 0 au32Num.toUInt8
    (4, data.setWrite 4)

/-- `Write(uint64_t)`. The write pointer is moved three times. -/
def writeU64 (data : CMemblock) (heap : Heap) (au64Num : UInt64) : Option (Nat × CMemblock) :=
  (data.expand heap 8).map fun data =>
    let data := data.poke 7 au64Num.toUInt8
    let au64Num := au64Num >>> 8
    let data := data.poke 6 au64Num.toUInt8
    let data := data.setWrite 2
    let data := data.poke 5 au64Num.toUInt8
    let au64Num := au64Num >>> 8
    let data := data.poke 4 au64Num.toUInt8
    let data := data.poke 3 au64Num.toUInt8
    let au64Num := au64Num >>> 8
    let data := data.poke 2 au64Num.toUInt8
    let data := data.setWrite 2
    let data := data.poke 1 au64Num.toUInt8
    let au64Num := au64Num >>> 8
    let data := data.poke 0 au64Num.toUInt8
    (8, data.setWrite 8)

/-- The loop over the elements of a vector. -/
def writeAll {α : Type} (write : CMemblock → Heap → α → Option (Nat × CMemblock))
    (data : CMemblock) (heap : Heap) : List α → Option CMemblock
  | [] => some data
  | x :: xs => (write data heap x).bind fun (_, data) => writeAll write data heap xs

/-- `Write` of a vector: its size, in 32 bits, then as many elements. `count` is what is
returned for the size. -/
def writeVector {α : Type} (write : CMemblock → Heap → α → Option (Nat × CMemblock))
    (count : UInt32 → UInt32) (data : CMemblock) (heap : Heap) (aoVec : List α) :
    Option (Nat × CMemblock) :=
  let luSize := UInt32.ofNat aoVec.length
  (data.writeU32 heap luSize).bind fun (_, data) =>
    (writeAll write data heap (aoVec.take luSize.toNat)).map fun data =>
      ((count luSize).toNat, data)

/-- `Write(std::vector<uint8_t>&)` -/
def writeVec8 (data : CMemblock) (heap : Heap) (aoVec : List UInt8) : Option (Nat × CMemblock) :=
  writeVector writeU8 (4 + ·) data heap aoVec

/-- `Write(std::vector<uint16_t>&)` -/
def writeVec16 (data : CMemblock) (heap : Heap) (aoVec : List UInt16) : Option (Nat × CMemblock) :=
  writeVector writeU16 (4 + 2 * ·) data heap aoVec

/-- `Write(std::vector<uint32_t>&)` -/
def writeVec32 (data : CMemblock) (heap : Heap) (aoVec : List UInt32) : Option (Nat × CMemblock) :=
  writeVector writeU32 (fun luSize => 4 * (1 + luSize)) data heap aoVec

/-- `Write(std::vector<uint64_t>&)` -/
def writeVec64 (data : CMemblock) (heap : Heap) (aoVec : List UInt64) : Option (Nat × CMemblock) :=
  writeVector writeU64 (fun luSize => 4 * (1 + 2 * luSize)) data heap aoVec

-- ---------------------------------------------------------------------------
-- Reading
-- ---------------------------------------------------------------------------

/-- `Read(uint8_t&)`; -1 is `none`. -/
def readU8 (data : CMemblock) : Option UInt8 × CMemblock :=
  if data.muSize < 1 then (none, data) else (some (data.peek 0), (data.setRead 1).2)

/-- `Read(uint16_t&)`. It moves the write pointer. -/
def readU16 (data : CMemblock) : Option UInt16 × CMemblock :=
  if data.muSize < 2 then (none, data)
  else
    let byte := fun k => (data.peek k).toInt8.toInt16.toUInt16
    (some ((byte 0 <<< 8) ||| byte 1), data.setWrite 2)

/-- `Read(uint32_t&)`. It shifts once more at the end, and moves no pointer. -/
def readU32 (data : CMemblock) : Option UInt32 × CMemblock :=
  if data.muSize < 2 then (none, data)
  else
    let byte := fun k => (data.peek k).toInt8.toInt32.toUInt32
    let au32Num := byte 0
    let au32Num := (au32Num <<< 8) ||| byte 1
    let au32Num := (au32Num <<< 8) ||| byte 2
    let au32Num := (au32Num <<< 8) ||| byte 3
    (some (au32Num <<< 8), data)

/-- `Read(uint64_t&)`. It reads the first four bytes, and then the same four again. -/
def readU64 (data : CMemblock) : Option UInt64 × CMemblock :=
  if data.muSize < 2 then (none, data)
  else
    let byte := fun k => (data.peek k).toInt8.toInt64.toUInt64
    let au64Num := byte 0
    let au64Num := (au64Num <<< 8) ||| byte 1
    let au64Num := (au64Num <<< 8) ||| byte 2
    let au64Num := (au64Num <<< 8) ||| byte 3
    (some (au64Num <<< 8), (data.setRead 8).2)

/-- The loop over as many elements as the size says. -/
def readAll {α : Type} (read : CMemblock → Option α × CMemblock) :
    Nat → CMemblock → Option (List α) × CMemblock
  | 0, data => (some [], data)
  | n + 1, data =>
    match read data with
    | (none, data) => (none, data)
    | (some x, data) =>
      match readAll read n data with
      | (none, data) => (none, data)
      | (some xs, data) => (some (x :: xs), data)

/-- `Read` of a vector that is empty at first: what it returns, unless it is -1, and the
elements. -/
def readVector {α : Type} (read : CMemblock → Option α × CMemblock) (count : UInt32 → UInt32)
    (data : CMemblock) : Option (Nat × List α) × CMemblock :=
  match data.readU32 with
  | (none, data) => (none, data)
  | (some luSize, data) =>
    match readAll read luSize.toNat data with
    | (none, data) => (none, data)
    | (some xs, data) => (some ((count luSize).toNat, xs), data)

/-- `Read(std::vector<uint8_t>&)` -/
def readVec8 (data : CMemblock) : Option (Nat × List UInt8) × CMemblock :=
  readVector readU8 (4 + ·) data

/-- `Read(std::vector<uint16_t>&)` -/
def readVec16 (data : CMemblock) : Option (Nat × List UInt16) × CMemblock :=
  readVector readU16 (fun luSize => 4 + luSize * 2) data

/-- `Read(std::vector<uint32_t>&)` -/
def readVec32 (data : CMemblock) : Option (Nat × List UInt32) × CMemblock :=
  readVector readU32 (fun luSize => 4 + luSize * 4) data

/-- `Read(std::vector<uint64_t>&)` -/
def readVec64 (data : CMemblock) : Option (Nat × List UInt64) × CMemblock :=
  readVector readU64 (fun luSize => 4 + luSize * 4) data

-- ---------------------------------------------------------------------------
-- Sequences
-- ---------------------------------------------------------------------------

/-- The types that can be written and read. -/
inductive Kind where
  | u8
  | u16
  | u32
  | u64
  | vec8
  | vec16
  | vec32
  | vec64
  deriving DecidableEq

namespace Kind

/-- The values of a type. -/
def Value : Kind → Type
  | u8 => UInt8
  | u16 => UInt16
  | u32 => UInt32
  | u64 => UInt64
  | vec8 => List UInt8
  | vec16 => List UInt16
  | vec32 => List UInt32
  | vec64 => List UInt64

/-- The overload of `Write`. -/
def write : (k : Kind) → CMemblock → Heap → k.Value → Option (Nat × CMemblock)
  | u8 => writeU8
  | u16 => writeU16
  | u32 => writeU32
  | u64 => writeU64
  | vec8 => writeVec8
  | vec16 => writeVec16
  | vec32 => writeVec32
  | vec64 => writeVec64

/-- The value of a `Read`, without what it returns besides. -/
def valueOf {α : Type} (result : Option (Nat × α) × CMemblock) : Option α × CMemblock :=
  (result.1.map Prod.snd, result.2)

/-- The overload of `Read`. -/
def read : (k : Kind) → CMemblock → Option k.Value × CMemblock
  | u8 => readU8
  | u16 => readU16
  | u32 => readU32
  | u64 => readU64
  | vec8 => fun data => valueOf data.readVec8
  | vec16 => fun data => valueOf data.readVec16
  | vec32 => fun data => valueOf data.readVec32
  | vec64 => fun data => valueOf data.readVec64

end Kind

/-- A value with its type. -/
abbrev Item := (k : Kind) × k.Value

/-- A sequence of `Write`s. -/
def writes (data : CMemblock) (heap : Heap) : List Item → Option CMemblock
  | [] => some data
  | ⟨k, v⟩ :: items => (k.write data heap v).bind fun (_, data) => writes data heap items

/-- A sequence of `Read`s, which ends at the first one that fails. -/
def reads (data : CMemblock) : List Kind → Option (List Item) × CMemblock
  | [] => (some [], data)
  | k :: kinds =>
    match k.read data with
    | (none, data) => (none, data)
    | (some v, data) =>
      match reads data kinds with
      | (none, data) => (none, data)
      | (some items, data) => (some (⟨k, v⟩ :: items), data)

/-- What is written to an empty block is read back and leaves the block empty, with the
read pointer behind the last byte written. The writes can fail only for want of memory
they need. -/
def RoundTrips (memory : List UInt8) (heap : Heap) (items : List Item) : Prop :=
  match writes (init memory) heap items with
  | none => ∃ n ≤ 4 * (memory.length + items.length), heap.new n = none
  | some data =>
    ∃ data', data.reads (items.map Sigma.fst) = (some items, data') ∧ data'.muSize = 0 ∧
      data'.mpcReadPt = data.mpcWritePt

variable {data data' : CMemblock} {heap : Heap}

-- ---------------------------------------------------------------------------
-- Bytes
-- ---------------------------------------------------------------------------

variable (heap) in
/-- A byte is written behind what the block holds, which grows to four times its size if
it is full. -/
theorem writeU8_spec (h : data.Layout) (hread : data.mpcReadPt = 0) (b : UInt8) :
    (data.writeU8 heap b = none ∧ heap.new (4 * data.muSize) = none) ∨
    ∃ data', data.writeU8 heap b = some (1, data') ∧ data'.Layout ∧ data'.mpcReadPt = 0 ∧
      data'.unread = data.unread ++ [b] := by
  have hle := h.capacity_le
  have hpos := h.capacity_pos
  have hsize := h.size_le
  have hfit : data.muSize + 1 ≤ 4 * data.muCapacity := by omega
  unfold writeU8
  cases hexpand : data.expand heap 1 with
  | none =>
    refine Or.inl ⟨rfl, ?_⟩
    unfold CMemblock.expand at hexpand
    rw [subSize_of_le hsize (by omega)] at hexpand
    simp only at hexpand
    split at hexpand
    · next hfull =>
      have heq : data.muSize = data.muCapacity := by
        by_contra hne
        rw [subSize_of_le (by omega) (by omega)] at hfull
        omega
      have hmod : data.muCapacity * 4 % 2 ^ 64 = 4 * data.muCapacity := by omega
      have hmore : 0 < subSize (subSize (4 * data.muCapacity) data.muSize) 1 := by
        rw [subSize_subSize (by omega) (by omega)]
        omega
      rw [expandSize, hmod, if_pos hmore, Option.bind_some] at hexpand
      rw [heq]
      exact resize_eq_none hexpand
    · exact absurd hexpand (by simp)
  | some grown =>
    obtain ⟨hlayout, hunread, hroom⟩ := h.expand hfit hexpand
    have hstart : grown.mpcReadPt = 0 := by
      unfold CMemblock.expand at hexpand
      simp only at hexpand
      split at hexpand
      · obtain ⟨n, -, hresize⟩ := Option.bind_eq_some_iff.mp hexpand
        unfold CMemblock.resize at hresize
        split at hresize
        · cases hresize
          exact hread
        · obtain ⟨memory, -, rfl⟩ := Option.map_eq_some_iff.mp hresize
          rfl
      · cases hexpand
        exact hread
    have hend := hlayout.end_eq
    have hsize' := hlayout.size_eq
    have hdirect : ¬ grown.mpcEnd - grown.mpcWritePt < 1 := by omega
    have happend : (grown.poke 0 b).setWrite 1 = grown.append [b] := by
      unfold CMemblock.setWrite
      rw [if_neg]
      · rfl
      · exact hdirect
    obtain ⟨hlayout', hunread'⟩ := hlayout.append [b] (by
      rw [List.length_singleton]
      omega)
    refine Or.inr ⟨grown.append [b], ?_, hlayout', hstart, ?_⟩
    · rw [Option.map_some, happend]
    · rw [hunread', hunread]

theorem readU8_spec (h : data.Layout) {b : UInt8} {rest : List UInt8}
    (hunread : data.unread = b :: rest) :
    ∃ data', data.readU8 = (some b, data') ∧ data'.Layout ∧ data'.unread = rest ∧
      data'.mpcWritePt = data.mpcWritePt := by
  have hlen := h.length_unread
  rw [hunread, List.length_cons] at hlen
  have hpeek : data.peek 0 = b := by
    have hhead : data.unread[0]? = some b := by rw [hunread]; rfl
    rw [unread, List.getElem?_take_of_lt (by omega)] at hhead
    rw [peek, List.getD_eq_getElem?_getD, hhead]
    rfl
  obtain ⟨hlayout, hskip⟩ := h.setRead 1
  have hsome : data.setRead 1 =
      (some 1, { data with mpcReadPt := data.mpcReadPt + 1, muSize := data.muSize - 1 }) := by
    unfold CMemblock.setRead
    rw [if_neg (by omega)]
  rw [hsome] at hlayout hskip
  refine ⟨_, ?_, hlayout, ?_, rfl⟩
  · unfold readU8
    rw [if_neg (by omega), hpeek, hsome]
  · rw [hskip.2.2, hunread]
    rfl

/-- Bytes as items. -/
def bytesOf (bytes : List UInt8) : List Item := bytes.map fun b => ⟨.u8, b⟩

theorem exists_bytesOf {items : List Item} (h : ∀ item ∈ items, item.1 = .u8) :
    ∃ bytes, items = bytesOf bytes := by
  induction items with
  | nil => exact ⟨[], rfl⟩
  | cons item items ih =>
    obtain ⟨bytes, rfl⟩ := ih fun item' hmem => h item' (List.mem_cons_of_mem item hmem)
    obtain ⟨k, v⟩ := item
    obtain rfl : k = .u8 := h _ List.mem_cons_self
    exact ⟨v :: bytes, rfl⟩

variable (heap) in
theorem writes_bytesOf (h : data.Layout) (hread : data.mpcReadPt = 0) (bytes : List UInt8) :
    (writes data heap (bytesOf bytes) = none ∧
      ∃ n ≤ 4 * (data.muSize + bytes.length), heap.new n = none) ∨
    ∃ data', writes data heap (bytesOf bytes) = some data' ∧ data'.Layout ∧
      data'.unread = data.unread ++ bytes := by
  induction bytes generalizing data with
  | nil => exact Or.inr ⟨data, rfl, h, by simp⟩
  | cons b bytes ih =>
    have hcons : writes data heap (bytesOf (b :: bytes)) =
        (data.writeU8 heap b).bind fun (_, data) => writes data heap (bytesOf bytes) := rfl
    rcases writeU8_spec heap h hread b with ⟨hnone, hnew⟩ |
      ⟨data₁, hsome, h₁, hread₁, hunread₁⟩
    · refine Or.inl ⟨?_, 4 * data.muSize, ?_, hnew⟩
      · rw [hcons, hnone]
        rfl
      · exact Nat.mul_le_mul_left 4 (Nat.le_add_right _ _)
    · have hsize₁ : data₁.muSize = data.muSize + 1 := by
        rw [← h₁.length_unread, hunread₁, List.length_append, h.length_unread]
        rfl
      rw [hcons, hsome, Option.bind_some]
      rcases ih h₁ hread₁ with ⟨hnone, n, hn, hnew⟩ | ⟨data', hsome', h', hunread'⟩
      · refine Or.inl ⟨hnone, n, ?_, hnew⟩
        rw [hsize₁] at hn
        rw [List.length_cons]
        omega
      · refine Or.inr ⟨data', hsome', h', ?_⟩
        rw [hunread', hunread₁, List.append_assoc]
        rfl

theorem reads_cons {data₁ : CMemblock} {k : Kind} {v : k.Value} {kinds : List Kind}
    {items : List Item} (hread : k.read data = (some v, data₁))
    (hrest : data₁.reads kinds = (some items, data')) :
    data.reads (k :: kinds) = (some (⟨k, v⟩ :: items), data') := by
  unfold reads
  rw [hread]
  simp only [hrest]

theorem reads_bytesOf (h : data.Layout) {bytes : List UInt8} (hunread : data.unread = bytes) :
    ∃ data', data.reads ((bytesOf bytes).map Sigma.fst) = (some (bytesOf bytes), data') ∧
      data'.Layout ∧ data'.unread = [] ∧ data'.mpcWritePt = data.mpcWritePt := by
  induction bytes generalizing data with
  | nil => exact ⟨data, rfl, h, hunread, rfl⟩
  | cons b bytes ih =>
    obtain ⟨data₁, hread, h₁, hunread₁, hwrite₁⟩ := readU8_spec h hunread
    obtain ⟨data', hreads, h', hunread', hwrite'⟩ := ih h₁ hunread₁
    refine ⟨data', ?_, h', hunread', hwrite'.trans hwrite₁⟩
    exact reads_cons (k := .u8) hread hreads

theorem roundTrips_bytesOf {memory : List UInt8} (hpos : 0 < memory.length)
    (hle : memory.length ≤ 2 ^ 57) (bytes : List UInt8) :
    RoundTrips memory heap (bytesOf bytes) := by
  have h := layout_init hpos hle
  have hlength : (bytesOf bytes).length = bytes.length := List.length_map _
  have hempty : (init memory).unread = [] := by simp [unread, init]
  unfold RoundTrips
  rcases writes_bytesOf heap h rfl bytes with ⟨hnone, n, hn, hnew⟩ |
    ⟨data, hsome, hlayout, hunread⟩
  · rw [hnone]
    refine ⟨n, ?_, hnew⟩
    have hzero : (init memory).muSize = 0 := rfl
    rw [hlength]
    omega
  · rw [hempty, List.nil_append] at hunread
    obtain ⟨data', hreads, h', hunread', hwrite⟩ := reads_bytesOf hlayout hunread
    rw [hsome]
    have hsize : data'.muSize = 0 := by
      rw [← h'.length_unread, hunread']
      rfl
    have hdist := h'.size_eq
    have hread := h'.read_le
    exact ⟨data', hreads, hsize, by omega⟩

-- ---------------------------------------------------------------------------
-- The other types
-- ---------------------------------------------------------------------------

namespace Kind

/-- A value of a type that, but for a byte, no `Read` returns. -/
def sample : (k : Kind) → k.Value
  | u8 => (0 : UInt8)
  | u16 => (0x0080 : UInt16)
  | u32 => (1 : UInt32)
  | u64 => (1 : UInt64)
  | vec8 => [(0 : UInt8)]
  | vec16 => [(0 : UInt16)]
  | vec32 => [(0 : UInt32)]
  | vec64 => [(0 : UInt64)]

end Kind

/-- The sign of the lower byte fills the upper one. -/
theorem readU16_ne {v : UInt16} (h : data.readU16 = (some v, data')) : v ≠ 0x0080 := by
  unfold readU16 at h
  split at h
  · cases h
  · cases h
    intro hv
    -- the bits 7 and 8 of the number are both the sign of the second byte
    have h7 := congrArg (fun v : UInt16 => v.toBitVec.getLsbD 7) hv
    have h8 := congrArg (fun v : UInt16 => v.toBitVec.getLsbD 8) hv
    simp [BitVec.getElem_signExtend] at h7 h8
    rw [BitVec.msb_eq_getLsbD_last] at h8
    simp [h7] at h8

/-- The lower byte is always zero. -/
theorem readU32_dvd {v : UInt32} (h : data.readU32 = (some v, data')) : 256 ∣ v.toNat := by
  unfold readU32 at h
  split at h
  · cases h
  · cases h
    rw [UInt32.toNat_shiftLeft, Nat.shiftLeft_eq]
    have hpow : (2 : Nat) ^ ((8 : UInt32).toNat % 32) = 256 := rfl
    rw [hpow]
    omega

theorem readU32_ne {v : UInt32} (h : data.readU32 = (some v, data')) : v ≠ 1 := by
  intro hv
  have hdvd := readU32_dvd h
  rw [hv] at hdvd
  exact absurd hdvd (by decide)

theorem readU64_ne {v : UInt64} (h : data.readU64 = (some v, data')) : v ≠ 1 := by
  unfold readU64 at h
  split at h
  · cases h
  · cases h
    intro hv
    have hbit := congrArg (fun v : UInt64 => v.toBitVec.getLsbD 0) hv
    simp at hbit

theorem length_readAll {α : Type} {read : CMemblock → Option α × CMemblock} {n : Nat}
    {xs : List α} (h : readAll read n data = (some xs, data')) : xs.length = n := by
  induction n generalizing data xs with
  | zero =>
    cases h
    rfl
  | succ n ih =>
    unfold readAll at h
    split at h
    · cases h
    · split at h
      · cases h
      · next hrest =>
        cases h
        rw [List.length_cons, ih hrest]

/-- The size of a vector is read wrong, so no vector of one element is read. -/
theorem readVector_ne {α : Type} {read : CMemblock → Option α × CMemblock}
    {count : UInt32 → UInt32} {n : Nat} {xs : List α}
    (h : readVector read count data = (some (n, xs), data')) : xs.length ≠ 1 := by
  unfold readVector at h
  split at h
  · cases h
  · next luSize data₁ hsize =>
    split at h
    · cases h
    · next xs' data₂ hall =>
      cases h
      rw [length_readAll hall]
      intro hone
      exact readU32_ne hsize (UInt32.toNat_inj.mp hone)

theorem valueOf_readVector_ne {α : Type} {read : CMemblock → Option α × CMemblock}
    {count : UInt32 → UInt32} {x : α} :
    Kind.valueOf (readVector read count data) ≠ (some [x], data') := by
  intro h
  cases hread : readVector read count data with
  | mk result data₁ =>
    rw [hread] at h
    cases result with
    | none => cases h
    | some result =>
      obtain ⟨n, xs⟩ := result
      cases h
      exact readVector_ne hread rfl

/-- No `Read` returns the sample of its type, whatever the block holds. -/
theorem read_ne_sample {k : Kind} (hk : k ≠ .u8) : k.read data ≠ (some k.sample, data') := by
  cases k with
  | u8 => exact absurd rfl hk
  | u16 => exact fun h => readU16_ne h rfl
  | u32 => exact fun h => readU32_ne h rfl
  | u64 => exact fun h => readU64_ne h rfl
  | vec8 => exact valueOf_readVector_ne
  | vec16 => exact valueOf_readVector_ne
  | vec32 => exact valueOf_readVector_ne
  | vec64 => exact valueOf_readVector_ne

theorem reads_ne_sample {kinds : List Kind} (hkinds : ∃ k ∈ kinds, k ≠ .u8) :
    data.reads kinds ≠ (some (kinds.map fun k => ⟨k, k.sample⟩), data') := by
  induction kinds generalizing data data' with
  | nil =>
    obtain ⟨k, hmem, -⟩ := hkinds
    exact absurd hmem List.not_mem_nil
  | cons k kinds ih =>
    intro h
    unfold reads at h
    split at h
    · cases h
    · next v data₁ hread =>
      split at h
      · cases h
      · next items data₂ hrest =>
        simp only [List.map_cons, Prod.mk.injEq, Option.some.injEq, List.cons.injEq] at h
        obtain ⟨⟨hitem, rfl⟩, -⟩ := h
        obtain rfl : v = k.sample := by simpa using hitem
        obtain ⟨k', hmem, hk'⟩ := hkinds
        rcases List.mem_cons.mp hmem with rfl | hmem
        · exact read_ne_sample hk' hread
        · exact ih ⟨k', hmem, hk'⟩ hrest

/-- A sequence of types that are all `uint8_t` is read back, whatever values are written,
into whatever memory and with whatever allocator. A sequence with another type in it has
values that its `Read`s never return, whatever block they read. -/
theorem roundTrips_onlyBytes (kinds : List Kind) :
    ((∀ k ∈ kinds, k = .u8) → ∀ (memory : List UInt8) (heap : Heap) (items : List Item),
      0 < memory.length → memory.length ≤ 2 ^ 57 → items.map Sigma.fst = kinds →
        RoundTrips memory heap items) ∧
    ((∃ k ∈ kinds, k ≠ .u8) → ∃ items : List Item, items.map Sigma.fst = kinds ∧
      ∀ data data' : CMemblock, data.reads kinds ≠ (some items, data')) := by
  constructor
  · intro hkinds memory heap items hpos hle hmap
    have hitems : ∀ item ∈ items, item.1 = .u8 := by
      intro item hitem
      apply hkinds
      rw [← hmap]
      exact List.mem_map_of_mem hitem
    obtain ⟨bytes, rfl⟩ := exists_bytesOf hitems
    exact roundTrips_bytesOf hpos hle bytes
  · intro hkinds
    refine ⟨kinds.map fun k => ⟨k, k.sample⟩, ?_, fun data data' => reads_ne_sample hkinds⟩
    rw [List.map_map]
    exact List.map_id kinds

/-- Three bytes, of which the third makes a block of two bytes grow. -/
theorem roundTrips_threeBytes :
    RoundTrips [0, 0] zeroHeap [⟨.u8, (1 : UInt8)⟩, ⟨.u8, (2 : UInt8)⟩, ⟨.u8, (255 : UInt8)⟩] :=
  (roundTrips_onlyBytes [.u8, .u8, .u8]).1 (by simp) _ _ _ (by decide) (by decide) rfl

/-- A number of 32 bits in a block of 16 bytes. -/
theorem not_roundTrips_one : ¬ RoundTrips (List.replicate 16 0) zeroHeap [⟨.u32, (1 : UInt32)⟩] := by
  intro h
  cases hwrites : writes (init (List.replicate 16 0)) zeroHeap [⟨.u32, (1 : UInt32)⟩] with
  | none => exact absurd hwrites (by decide)
  | some data =>
    simp only [RoundTrips, hwrites] at h
    obtain ⟨data', hreads, -⟩ := h
    have hkinds : ∃ k ∈ [Kind.u32], k ≠ .u8 := ⟨.u32, List.mem_singleton_self _, by decide⟩
    exact reads_ne_sample hkinds hreads

end CMemblock

end Netfram
