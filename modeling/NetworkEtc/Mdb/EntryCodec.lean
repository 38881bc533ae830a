-- SUMMARY: A data entry written to a memory block, and why it is never read back.
import NetworkEtc.Netfram.TypedCodec

/-!
# `data_entry::encode` and `data_entry::decode`

An entry is written field by field with the typed `Write` of a memory block, and read with
the typed `Read`. `Read` of a number of 16 or of 32 bits does not move the read pointer, so
that all of them read near the start of the block.
-/

namespace Tair

open Netfram

structure ItemMetaInfo where
  magic : UInt16
  checksum : UInt16
  keysize : UInt16
  version : UInt16
  padsize : UInt32
  valsize : BitVec 24
  flag : UInt8
  cdate : UInt32
  mdate : UInt32
  edate : UInt32
  deriving DecidableEq

structure DataEntry where
  /-- The `size` bytes at `data`. -/
  data : List UInt8
  prefixSize : Nat
  hasMerged : Bool
  area : UInt32
  serverFlag : UInt16
  dataMeta : ItemMetaInfo
  deriving DecidableEq

def PREFIX_KEY_OFFSET : UInt32 := 22
def PREFIX_KEY_MASK : UInt32 := 0x3FFFFF

-- ---------------------------------------------------------------------------
-- Writing
-- ---------------------------------------------------------------------------

/-- `_item_meta::encode` -/
def ItemMetaInfo.encode (dataMeta : ItemMetaInfo) (output : CMemblock) (heap : Heap) :
    Option CMemblock := do
  let (_, output) ← output.writeU16 heap dataMeta.magic
  let (_, output) ← output.writeU16 heap dataMeta.checksum
  let (_, output) ← output.writeU16 heap dataMeta.keysize
  let (_, output) ← output.writeU16 heap dataMeta.version
  let (_, output) ← output.writeU32 heap dataMeta.padsize
  let (_, output) ← output.writeU32 heap (UInt32.ofNat dataMeta.valsize.toNat)
  let (_, output) ← output.writeU8 heap dataMeta.flag
  let (_, output) ← output.writeU32 heap dataMeta.cdate
  let (_, output) ← output.writeU32 heap dataMeta.mdate
  let (_, output) ← output.writeU32 heap dataMeta.edate
  return output

/-- `encoded_size` -/
def DataEntry.encodedSize (entry : DataEntry) : Nat := 40 + entry.data.length

/-- `size | (prefix_size << PREFIX_KEY_OFFSET)` -/
def DataEntry.msize (entry : DataEntry) : UInt32 :=
  UInt32.ofNat entry.data.length ||| (UInt32.ofNat entry.prefixSize <<< PREFIX_KEY_OFFSET)

/-- `encode`. It throws where `new` does. -/
def DataEntry.encode (entry : DataEntry) (output : CMemblock) (heap : Heap) :
    Option CMemblock := do
  let (_, output) ← output.writeU8 heap (if entry.hasMerged then 1 else 0)
  let (_, output) ← output.writeU32 heap entry.area
  let (_, output) ← output.writeU16 heap entry.serverFlag
  let output ← entry.dataMeta.encode output heap
  let (_, output) ← output.writeU32 heap entry.msize
  if 0 < entry.data.length then output.write heap entry.data else return output

-- ---------------------------------------------------------------------------
-- Reading
-- ---------------------------------------------------------------------------

/-- A variable after a `Read` into it. A `Read` that fails leaves it as it was. -/
def assign {α : Type} (old : α) (result : Option α × CMemblock) : α × CMemblock :=
  (result.1.getD old, result.2)

/-- What the local variables hold before they are assigned. -/
structure Locals where
  tempMerged : UInt8
  area : UInt32
  flag : UInt16
  msize : UInt32
  luVal : UInt32

/-- `_item_meta::decode` -/
def ItemMetaInfo.decode (old : ItemMetaInfo) (stack : Locals) (input : CMemblock) :
    ItemMetaInfo × CMemblock :=
  let (magic, input) := assign old.magic input.readU16
  let (checksum, input) := assign old.checksum input.readU16
  let (keysize, input) := assign old.keysize input.readU16
  let (version, input) := assign old.version input.readU16
  let (padsize, input) := assign old.padsize input.readU32
  let (luVal, input) := assign stack.luVal input.readU32
  let valsize := BitVec.ofNat 24 luVal.toNat
  let (flag, input) := assign old.flag input.readU8
  let (cdate, input) := assign old.cdate input.readU32
  let (mdate, input) := assign old.mdate input.readU32
  let (edate, input) := assign old.edate input.readU32
  ({ magic, checksum, keysize, version, padsize, valsize, flag, cdate, mdate, edate }, input)

/-- `data_entry()` -/
def DataEntry.init : DataEntry where
  data := []
  prefixSize := 0
  hasMerged := false
  area := 0
  serverFlag := 0
  dataMeta := ⟨0, 0, 0, 0, 0, 0, 0, 0, 0, 0⟩

/-- `free_data` -/
def DataEntry.freeData (entry : DataEntry) : DataEntry :=
  { entry with data := [], hasMerged := false, area := 0 }

/-- `if (size > 0)`: `set_data(NULL, size)`, zeros, and over them what is read. -/
def readData (size : Nat) (input : CMemblock) : List UInt8 × CMemblock :=
  if 0 < size then
    let (bytes, input) := input.read size
    (bytes.getD [] ++ List.replicate (size - (bytes.getD []).length) 0, input)
  else ([], input)

/-- `decode` behind the test of the area. -/
def DataEntry.decodeRest (entry : DataEntry) (stack : Locals) (tempMerged : UInt8) (area : UInt32)
    (input : CMemblock) : DataEntry × CMemblock :=
  let (serverFlag, input) := assign stack.flag input.readU16
  let (dataMeta, input) := entry.dataMeta.decode stack input
  let (msize, input) := assign stack.msize input.readU32
  let size := (msize &&& PREFIX_KEY_MASK).toNat
  let prefixSize := (msize >>> PREFIX_KEY_OFFSET).toNat
  let (data, input) := readData size input
  ({ data, prefixSize, hasMerged := tempMerged != 0, area, serverFlag, dataMeta }, input)

/-- `decode` -/
def DataEntry.decode (entry : DataEntry) (stack : Locals) (input : CMemblock) :
    Bool × DataEntry × CMemblock :=
  let entry := entry.freeData
  let tempMerged := assign stack.tempMerged input.readU8
  let area := assign stack.area tempMerged.2.readU32
  if 1024 ≤ area.1 then (false, entry, area.2)
  else (true, entry.decodeRest stack tempMerged.1 area.1 area.2)

-- ---------------------------------------------------------------------------
-- How far the pointers move
-- ---------------------------------------------------------------------------

variable {data data₁ data₂ : CMemblock} {heap : Heap} {lo hi lo' hi' n m : Nat}

/-- A block that was written to: it holds between `lo` and `hi` bytes more. -/
structure Grown (data data' : CMemblock) (lo hi : Nat) : Prop where
  layout : data'.Layout
  read_eq : data'.mpcReadPt = 0
  capacity_le : data.muCapacity ≤ data'.muCapacity
  lower : data.muSize + lo ≤ data'.muSize
  upper : data'.muSize ≤ data.muSize + hi

theorem Grown.trans (h : Grown data data₁ lo hi) (h' : Grown data₁ data₂ lo' hi') :
    Grown data data₂ (lo + lo') (hi + hi') where
  layout := h'.layout
  read_eq := h'.read_eq
  capacity_le := Nat.le_trans h.capacity_le h'.capacity_le
  lower := by
    have := h.lower
    have := h'.lower
    omega
  upper := by
    have := h.upper
    have := h'.upper
    omega

/-- `Expand` makes room and moves nothing. -/
theorem Grown.expand (h : data.Layout) (hread : data.mpcReadPt = 0)
    (hfit : data.muSize + n ≤ 4 * data.muCapacity) (hexpand : data.expand heap n = some data₁) :
    Grown data data₁ 0 0 ∧ data₁.muSize + n ≤ data₁.muCapacity := by
  obtain ⟨hlayout, hunread, hroom⟩ := h.expand hfit hexpand
  have hsize : data₁.muSize = data.muSize := by
    rw [← hlayout.length_unread, hunread, h.length_unread]
  have hstart : data₁.mpcReadPt = 0 ∧ data.muCapacity ≤ data₁.muCapacity := by
    unfold CMemblock.expand at hexpand
    simp only at hexpand
    split at hexpand
    · obtain ⟨size, -, hresize⟩ := Option.bind_eq_some_iff.mp hexpand
      unfold CMemblock.resize at hresize
      split at hresize
      · cases hresize
        exact ⟨hread, Nat.le_refl _⟩
      · rename_i hmore
        obtain ⟨memory, -, rfl⟩ := Option.map_eq_some_iff.mp hresize
        exact ⟨rfl, Nat.le_of_lt (Nat.not_le.mp hmore)⟩
    · cases hexpand
      exact ⟨hread, Nat.le_refl _⟩
  exact ⟨⟨hlayout, hstart.1, hstart.2, by omega, by omega⟩, hroom⟩

@[simp] theorem poke_muSize {k : Nat} {b : UInt8} : (data.poke k b).muSize = data.muSize := rfl

@[simp] theorem poke_muCapacity {k : Nat} {b : UInt8} :
    (data.poke k b).muCapacity = data.muCapacity := rfl

@[simp] theorem setWrite_muCapacity : (data.setWrite n).muCapacity = data.muCapacity := by
  unfold CMemblock.setWrite
  split <;> rfl

/-- A byte is stored where there is room. -/
theorem Grown.poke (h : Grown data data₁ lo hi) {k : Nat} {b : UInt8}
    (hroom : data₁.muSize + k < data₁.muCapacity) : Grown data (data₁.poke k b) lo hi := by
  have hl := h.layout
  have hlayout : (data₁.poke k b).Layout := by
    refine ⟨?_, hl.capacity_pos, hl.capacity_le, hl.read_le, hl.write_le, hl.end_eq, hl.size_eq⟩
    have hlen : data₁.mpcWritePt + k + [b].length ≤ data₁.mpcBase.length := by
      have := hl.size_eq
      have := h.read_eq
      rw [hl.memory, List.length_singleton]
      omega
    change (Library.Printf.store _ _ _).length = data₁.muCapacity
    rw [CMemblock.length_store hlen, hl.memory]
  exact ⟨hlayout, h.read_eq, h.capacity_le, h.lower, h.upper⟩

/-- The write pointer moves where there is room. -/
theorem Grown.setWrite (h : Grown data data₁ lo hi)
    (hroom : data₁.muSize + n ≤ data₁.muCapacity) :
    Grown data (data₁.setWrite n) (lo + n) (hi + n) ∧
      (data₁.setWrite n).muSize = data₁.muSize + n := by
  have hl := h.layout
  have := hl.size_eq
  have := hl.end_eq
  have := hl.read_le
  have := h.read_eq
  have := h.lower
  have := h.upper
  unfold CMemblock.setWrite
  rw [if_neg (by omega)]
  refine ⟨⟨⟨hl.memory, hl.capacity_pos, hl.capacity_le, ?_, ?_, hl.end_eq, ?_⟩, h.read_eq,
    h.capacity_le, ?_, ?_⟩, rfl⟩
  · exact Nat.le_trans hl.read_le (Nat.le_add_right _ _)
  · simp only
    omega
  · simp only
    omega
  · simp only
    omega
  · simp only
    omega

/-- Where there is no room it stays. -/
theorem Grown.setWrite_or (h : Grown data data₁ lo hi) :
    Grown data (data₁.setWrite n) lo (hi + n) := by
  cases Nat.lt_or_ge (data₁.mpcEnd - data₁.mpcWritePt) n with
  | inl hlt =>
    have hsame : data₁.setWrite n = data₁ := by
      unfold CMemblock.setWrite
      rw [if_pos hlt]
    rw [hsame]
    exact ⟨h.layout, h.read_eq, h.capacity_le, h.lower, Nat.le_trans h.upper (by omega)⟩
  | inr hge =>
    have hl := h.layout
    have := hl.size_eq
    have := hl.end_eq
    have := hl.write_le
    have hroom : data₁.muSize + n ≤ data₁.muCapacity := by omega
    obtain ⟨hgrown, -⟩ := h.setWrite hroom
    exact ⟨hgrown.layout, hgrown.read_eq, hgrown.capacity_le,
      Nat.le_trans (by omega) hgrown.lower, hgrown.upper⟩

section

variable (h : data.Layout) (hread : data.mpcReadPt = 0)

include h hread

theorem writeU8_grown {b : UInt8} (hfit : data.muSize + 1 ≤ 4 * data.muCapacity)
    (hwrite : data.writeU8 heap b = some (m, data₂)) : Grown data data₂ 1 1 := by
  obtain ⟨data₁, hexpand, heq⟩ := Option.map_eq_some_iff.mp hwrite
  obtain ⟨hgrown, hroom⟩ := Grown.expand h hread hfit hexpand
  cases heq
  exact ((hgrown.poke (by omega)).setWrite (by simpa using hroom)).1

theorem writeU16_grown {v : UInt16} (hfit : data.muSize + 2 ≤ 4 * data.muCapacity)
    (hwrite : data.writeU16 heap v = some (m, data₂)) : Grown data data₂ 2 2 := by
  obtain ⟨data₁, hexpand, heq⟩ := Option.map_eq_some_iff.mp hwrite
  obtain ⟨hgrown, hroom⟩ := Grown.expand h hread hfit hexpand
  cases heq
  apply (Grown.setWrite _ (by simpa using hroom)).1
  apply Grown.poke
  · exact hgrown.poke (by omega)
  · simp only [poke_muSize, poke_muCapacity]
    omega

/-- The second move of the pointer is refused when there is no room for it. -/
theorem writeU32_grown {v : UInt32} (hfit : data.muSize + 4 ≤ 4 * data.muCapacity)
    (hwrite : data.writeU32 heap v = some (m, data₂)) : Grown data data₂ 2 6 := by
  obtain ⟨data₁, hexpand, heq⟩ := Option.map_eq_some_iff.mp hwrite
  obtain ⟨hgrown, hroom⟩ := Grown.expand h hread hfit hexpand
  cases heq
  have hpoked : Grown data ((data₁.poke 3 v.toUInt8).poke 2 (v >>> 8).toUInt8) 0 0 := by
    apply Grown.poke
    · exact hgrown.poke (by omega)
    · simp only [poke_muSize, poke_muCapacity]
      omega
  obtain ⟨hmoved, hsize⟩ := Grown.setWrite (n := 2) hpoked (by
    simp only [poke_muSize, poke_muCapacity]
    omega)
  simp only [poke_muSize] at hsize
  apply Grown.setWrite_or (n := 4)
  apply Grown.poke
  · apply hmoved.poke
    simp only [hsize, setWrite_muCapacity, poke_muCapacity]
    omega
  · simp only [poke_muSize, poke_muCapacity, hsize, setWrite_muCapacity]
    omega

end

section

variable (h : Grown data data₁ lo hi)

include h

theorem Grown.fit (hfit : data.muSize + hi + n ≤ 4 * data.muCapacity) :
    data₁.muSize + n ≤ 4 * data₁.muCapacity := by
  have := h.upper
  have := h.capacity_le
  omega

theorem Grown.writeU8 {b : UInt8} (hfit : data.muSize + hi + 1 ≤ 4 * data.muCapacity)
    (hwrite : data₁.writeU8 heap b = some (m, data₂)) : Grown data data₂ (lo + 1) (hi + 1) :=
  h.trans (writeU8_grown h.layout h.read_eq (h.fit hfit) hwrite)

theorem Grown.writeU16 {v : UInt16} (hfit : data.muSize + hi + 2 ≤ 4 * data.muCapacity)
    (hwrite : data₁.writeU16 heap v = some (m, data₂)) : Grown data data₂ (lo + 2) (hi + 2) :=
  h.trans (writeU16_grown h.layout h.read_eq (h.fit hfit) hwrite)

theorem Grown.writeU32 {v : UInt32} (hfit : data.muSize + hi + 4 ≤ 4 * data.muCapacity)
    (hwrite : data₁.writeU32 heap v = some (m, data₂)) : Grown data data₂ (lo + 2) (hi + 6) :=
  h.trans (writeU32_grown h.layout h.read_eq (h.fit hfit) hwrite)

theorem Grown.encodeMeta {dataMeta : ItemMetaInfo}
    (hfit : data.muSize + hi + 39 ≤ 4 * data.muCapacity)
    (hwrite : dataMeta.encode data₁ heap = some data₂) : Grown data data₂ (lo + 19) (hi + 39) := by
  simp only [ItemMetaInfo.encode, bind, pure, Option.bind_eq_some_iff, Option.some.injEq,
    Prod.exists] at hwrite
  obtain ⟨_, _, hmagic, _, _, hchecksum, _, _, hkeysize, _, _, hversion, _, _, hpadsize, _, _,
    hvalsize, _, _, hflag, _, _, hcdate, _, _, hmdate, _, _, hedate, rfl⟩ := hwrite
  have h := h.writeU16 (by omega) hmagic
  have h := h.writeU16 (by omega) hchecksum
  have h := h.writeU16 (by omega) hkeysize
  have h := h.writeU16 (by omega) hversion
  have h := h.writeU32 (by omega) hpadsize
  have h := h.writeU32 (by omega) hvalsize
  have h := h.writeU8 (by omega) hflag
  have h := h.writeU32 (by omega) hcdate
  have h := h.writeU32 (by omega) hmdate
  exact h.writeU32 (by omega) hedate

end

/-- The header of an entry takes more than two bytes, and the data come behind it. -/
theorem encode_size {entry : DataEntry} {memory : List UInt8}
    (hlayout : (CMemblock.init memory).Layout) (hfit : entry.encodedSize ≤ memory.length)
    (hencode : entry.encode (.init memory) heap = some data) :
    data.Layout ∧ 26 + entry.data.length ≤ data.muSize := by
  have hzero : (CMemblock.init memory).muSize = 0 := rfl
  have hcapacity : (CMemblock.init memory).muCapacity = memory.length := rfl
  unfold DataEntry.encodedSize at hfit
  simp only [DataEntry.encode, bind, pure, Option.bind_eq_some_iff, Prod.exists] at hencode
  obtain ⟨_, _, hmerged, _, _, harea, _, _, hflag, _, hmeta, _, header, hmsize, hdata⟩ := hencode
  have h : Grown (.init memory) (.init memory) 0 0 :=
    ⟨hlayout, rfl, Nat.le_refl _, Nat.le_refl _, Nat.le_refl _⟩
  have h := h.writeU8 (by omega) hmerged
  have h := h.writeU32 (by omega) harea
  have h := h.writeU16 (by omega) hflag
  have h := h.encodeMeta (by omega) hmeta
  have h := h.writeU32 (by omega) hmsize
  have hlower := h.lower
  split at hdata
  · obtain ⟨hl, hunread⟩ := h.layout.write (h.fit (n := entry.data.length) (by omega)) hdata
    refine ⟨hl, ?_⟩
    rw [← hl.length_unread, hunread, List.length_append, h.layout.length_unread]
    omega
  · cases hdata
    exact ⟨h.layout, by omega⟩

-- ---------------------------------------------------------------------------
-- How far the reads move
-- ---------------------------------------------------------------------------

/-- A block that was read from: the read pointer is `n` bytes further, and no more than `n`
bytes are gone. -/
structure Skimmed (data data' : CMemblock) (n : Nat) : Prop where
  read_eq : data'.mpcReadPt = data.mpcReadPt + n
  size_le : data.muSize ≤ data'.muSize + n

theorem Skimmed.trans (h : Skimmed data data₁ n) (h' : Skimmed data₁ data₂ m) :
    Skimmed data data₂ (n + m) := by
  have := h.read_eq
  have := h.size_le
  have := h'.read_eq
  have := h'.size_le
  constructor <;> omega

theorem readU8_skimmed (hsize : 0 < data.muSize) : Skimmed data data.readU8.2 1 := by
  unfold CMemblock.readU8 CMemblock.setRead
  rw [if_neg (by omega), if_neg (by omega)]
  exact ⟨rfl, by simp only; omega⟩

/-- `Read` of 16 bits does not move the read pointer. -/
theorem readU16_skimmed : Skimmed data data.readU16.2 0 := by
  unfold CMemblock.readU16
  split
  · exact ⟨rfl, Nat.le_refl _⟩
  · unfold CMemblock.setWrite
    split
    · exact ⟨rfl, Nat.le_refl _⟩
    · exact ⟨rfl, Nat.le_add_right _ _⟩

/-- `Read` of 32 bits does not either. -/
theorem readU32_skimmed : Skimmed data data.readU32.2 0 := by
  unfold CMemblock.readU32
  split <;> exact ⟨rfl, Nat.le_refl _⟩

section

variable (h : Skimmed data data₁ n)

include h

theorem Skimmed.readU8 (hsize : n < data.muSize) : Skimmed data data₁.readU8.2 (n + 1) := by
  have := h.size_le
  exact h.trans (readU8_skimmed (by omega))

theorem Skimmed.readU16 : Skimmed data data₁.readU16.2 n := h.trans readU16_skimmed

theorem Skimmed.readU32 : Skimmed data data₁.readU32.2 n := h.trans readU32_skimmed

/-- The flag is the only field of the meta information whose `Read` moves on. -/
theorem Skimmed.decodeMeta (hsize : n < data.muSize) (old : ItemMetaInfo) (stack : Locals) :
    Skimmed data (old.decode stack data₁).2 (n + 1) := by
  have h := h.readU16.readU16.readU16.readU16
  have h := h.readU32.readU32
  have h := h.readU8 hsize
  simp only [ItemMetaInfo.decode, assign]
  exact h.readU32.readU32.readU32

end

/-- A block that holds more than the data that are read keeps the rest. -/
theorem readData_read_eq {size : Nat} (hsize : (readData size data).1.length < data.muSize) :
    (readData size data).2.mpcReadPt = data.mpcReadPt + (readData size data).1.length := by
  by_cases hpos : 0 < size
  · simp only [readData, if_pos hpos] at hsize ⊢
    by_cases hempty : data.muSize = 0
    · omega
    · by_cases hless : data.muSize < size
      · simp [CMemblock.read, hempty, hless] at hsize
        omega
      · simp [CMemblock.read, hempty, hless]
  · simp [readData, hpos]

/-- A block that holds the data and more: `decode` moves two bytes and the data. -/
theorem decode_skims {entry decoded : DataEntry} {stack : Locals} {input : CMemblock}
    (hsize : decoded.data.length + 2 < input.muSize)
    (hdecode : entry.decode stack input = (true, decoded, data)) :
    data.mpcReadPt = input.mpcReadPt + 2 + decoded.data.length := by
  have h : Skimmed input input 0 := ⟨rfl, Nat.le_refl _⟩
  have h := (h.readU8 (by omega)).readU32
  have h := (h.readU16.decodeMeta (by omega) entry.freeData.dataMeta stack).readU32
  unfold DataEntry.decode at hdecode
  dsimp only at hdecode
  split at hdecode
  · cases hdecode
  · have hrest := (Prod.mk.inj hdecode).2
    simp only [DataEntry.decodeRest] at hrest
    cases hrest
    have hleft := h.size_le
    simp only [assign] at hsize ⊢
    rw [readData_read_eq (by omega), h.read_eq]

-- ---------------------------------------------------------------------------
-- The round trip
-- ---------------------------------------------------------------------------

/-- The entry is encoded into an empty block with this memory, and decoding the bytes into a
fresh entry gives it back and ends behind the last byte. -/
def DataEntry.RoundTrips (entry : DataEntry) (memory : List UInt8) (heap : Heap)
    (stack : Locals) : Prop :=
  ∃ output, entry.encode (.init memory) heap = some output ∧
    ∃ decoded input, DataEntry.init.decode stack output = (true, decoded, input) ∧
      decoded = entry ∧ input.mpcReadPt = output.mpcWritePt

/-- No entry makes the round trip: where its data are as long as they were, `decode` has
read two bytes of the header. -/
theorem not_roundTrips {entry : DataEntry} {heap : Heap} {capacity : Nat} {memory : List UInt8}
    (stack : Locals) (hnew : heap.new capacity = some memory)
    (hcapacity : entry.encodedSize ≤ capacity) : ¬ entry.RoundTrips memory heap stack := by
  rintro ⟨output, hencode, decoded, input, hdecode, rfl, hend⟩
  have hlen := heap.length_new hnew
  have hle := heap.new_le hnew
  have hpos : 0 < memory.length := by
    unfold DataEntry.encodedSize at hcapacity
    omega
  have hinit := CMemblock.layout_init hpos (by omega)
  obtain ⟨hlayout, hsize⟩ := encode_size hinit (by omega) hencode
  have hread := decode_skims (by omega) hdecode
  have hdist := hlayout.size_eq
  omega

/-- Zeros on the stack. -/
def zeroLocals : Locals := ⟨0, 0, 0, 0, 0⟩

theorem not_roundTrips_init :
    ¬ DataEntry.init.RoundTrips (List.replicate 64 0) CMemblock.zeroHeap zeroLocals := by
  have hnew : CMemblock.zeroHeap.new 64 = some (List.replicate 64 0) := rfl
  exact not_roundTrips zeroLocals hnew (by decide)

/-- An entry of one byte in area 1. -/
def byteEntry : DataEntry := { DataEntry.init with data := [7], area := 1 }

/-- It is read with area 0. -/
theorem not_roundTrips_byte :
    ¬ byteEntry.RoundTrips (List.replicate 64 0) CMemblock.zeroHeap zeroLocals := by
  rintro ⟨output, hencode, decoded, input, hdecode, hentry, -⟩
  have harea : (byteEntry.encode (.init (List.replicate 64 0)) CMemblock.zeroHeap).map
      (fun output => (DataEntry.init.decode zeroLocals output).2.1.area) = some 0 := by
    decide +kernel
  rw [hencode, Option.map_some, hdecode, hentry] at harea
  have hone : byteEntry.area ≠ 0 := by decide
  exact hone (Option.some.inj harea)

end Tair
