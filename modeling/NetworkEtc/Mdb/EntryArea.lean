-- SUMMARY: An area merged into the key of a data entry, and the copies that it can be taken out of again.
import NetworkEtc.Mdb.EntryCodec

/-!
# `data_entry::merge_area` and `data_entry::decode_area`

An entry that owns its data keeps two bytes before them for the area, and `decode_area` takes
the data to begin behind these. A copy of an entry with the area in its data keeps two bytes
more: what `decode_area` takes for the room for the area is then empty room.
-/

namespace Tair

open Netfram Library.Printf

/-- `data_entry` with the memory it is in. -/
structure BufferEntry where
  size : Nat
  prefixSize : Nat
  /-- Where `data` is, from `m_true_data` on. -/
  data : Nat
  alloc : Bool
  mTrueSize : Nat
  /-- The memory at `m_true_data`. -/
  mTrueData : List UInt8
  hasMerged : Bool
  hasMetaMerged : Bool
  area : UInt32
  serverFlag : UInt16
  dataMeta : ItemMetaInfo
  deriving DecidableEq

namespace BufferEntry

/-- `data_entry()` -/
def init : BufferEntry where
  size := 0
  prefixSize := 0
  data := 0
  alloc := false
  mTrueSize := 0
  mTrueData := []
  hasMerged := false
  hasMetaMerged := false
  area := 0
  serverFlag := 0
  dataMeta := ⟨0, 0, 0, 0, 0, 0, 0, 0, 0, 0⟩

/-- The `size` bytes at `data`. -/
def bytes (entry : BufferEntry) : List UInt8 := (entry.mTrueData.drop entry.data).take entry.size

/-- `free_data` -/
def freeData (entry : BufferEntry) : BufferEntry :=
  { entry with
    data := 0
    mTrueData := []
    alloc := false
    size := 0
    mTrueSize := 0
    hasMerged := false
    area := 0 }

/-- `set_data` -/
def setData (entry : BufferEntry) (newData : List UInt8) (needAlloc : Bool) : BufferEntry :=
  let entry := entry.freeData
  if needAlloc then
    if 0 < newData.length then
      { entry with
        mTrueSize := newData.length + 2
        mTrueData := 0xFF :: 0xFF :: newData ++ [0]
        alloc := true
        data := 2
        size := newData.length }
    else entry
  else
    { entry with
      data := 0
      mTrueData := newData
      mTrueSize := newData.length
      size := newData.length }

/-- `set_alloced_data` -/
def setAllocedData (entry : BufferEntry) (newData : List UInt8) : BufferEntry :=
  { entry.freeData with
    data := 0
    mTrueData := newData
    size := newData.length
    mTrueSize := newData.length
    alloc := true }

/-- What the copy constructor, `operator=` and `clone` do. -/
def copyFrom (self entry : BufferEntry) (needAlloc : Bool) : BufferEntry :=
  { self.setData entry.bytes needAlloc with
    prefixSize := entry.prefixSize
    hasMerged := entry.hasMerged
    hasMetaMerged := entry.hasMetaMerged
    area := entry.area
    serverFlag := entry.serverFlag
    dataMeta := entry.dataMeta }

/-- `data_entry(const data_entry&)` -/
def copy (entry : BufferEntry) : BufferEntry := init.copyFrom entry entry.alloc

/-- `operator=`, on another entry -/
def assign (self entry : BufferEntry) : BufferEntry := self.copyFrom entry entry.alloc

/-- `clone` -/
def clone (self entry : BufferEntry) : BufferEntry := self.copyFrom entry true

/-- `merge_area` -/
def mergeArea (entry : BufferEntry) (area : UInt32) : BufferEntry :=
  if entry.hasMerged then entry
  else if entry.mTrueSize = entry.size + 2 then
    { entry with
      mTrueData := store entry.mTrueData 0 [area.toUInt8, (area >>> 8).toUInt8]
      size := entry.mTrueSize
      data := 0
      area
      hasMerged := true }
  else
    -- the zero byte at the end is written one byte behind the memory
    { entry with
      mTrueSize := entry.size + 2
      mTrueData := area.toUInt8 :: (area >>> 8).toUInt8 :: entry.bytes
      data := 0
      size := entry.size + 2
      area
      hasMerged := true }

/-- The area in the first two bytes of the data. -/
def areaOf (bytes : List UInt8) : UInt32 :=
  ((bytes.getD 1 0).toUInt32 <<< 8) ||| (bytes.getD 0 0).toUInt32

/-- `decode_area`: what it returns, and the entry behind it. -/
def decodeArea (entry : BufferEntry) : Option (UInt32 × BufferEntry) :=
  if entry.hasMerged then
    -- `assert(size > 2)`
    if 2 < entry.size then
      some (areaOf entry.bytes,
        { entry with
          area := areaOf entry.bytes
          hasMerged := false
          data := 2
          size := entry.mTrueSize - 2 })
    else none
  else some (entry.area, entry)

/-- What `encode` reads of the entry. -/
def view (entry : BufferEntry) : DataEntry where
  data := entry.bytes
  prefixSize := entry.prefixSize
  hasMerged := entry.hasMerged
  area := entry.area
  serverFlag := entry.serverFlag
  dataMeta := entry.dataMeta

/-- `decode` -/
def decode (entry : BufferEntry) (stack : Locals) (input : CMemblock) :
    Bool × BufferEntry × CMemblock :=
  let entry := entry.freeData
  let (ok, decoded, input) := entry.view.decode stack input
  let entry := if 0 < decoded.data.length then entry.setData decoded.data true else entry
  (ok,
    { entry with
      prefixSize := decoded.prefixSize
      hasMerged := decoded.hasMerged
      area := decoded.area
      serverFlag := decoded.serverFlag
      dataMeta := decoded.dataMeta },
    input)

-- ---------------------------------------------------------------------------
-- Representations and chains
-- ---------------------------------------------------------------------------

/-- How an entry comes to hold a key. -/
inductive Origin where
  | owned
  | borrowed
  | alloced

def Origin.hold (self : BufferEntry) (key : List UInt8) : Origin → BufferEntry
  | owned => self.setData key true
  | borrowed => self.setData key false
  | alloced => self.setAllocedData key

/-- The `alloc` of an entry with the key. -/
def Origin.alloc : Origin → Bool
  | owned => true
  | borrowed => false
  | alloced => true

/-- How an entry is handed on. -/
inductive Step where
  | copy
  /-- The entry is assigned to itself. -/
  | assignSelf
  | assign (self : BufferEntry)
  | clone (self : BufferEntry)
  /-- The entry is encoded into a new block, which has room for it and `spare` bytes more. -/
  | transfer (self : BufferEntry) (heap : Heap) (spare : Nat) (stack : Locals)

/-- The entry that has it then. There is none where `new` throws or `decode` fails. -/
def Step.run (entry : BufferEntry) : Step → Option BufferEntry
  | copy => some entry.copy
  | assignSelf => some entry
  | assign self => some (self.assign entry)
  | clone self => some (self.clone entry)
  | transfer self heap spare stack => do
    let memory ← heap.new (entry.view.encodedSize + spare)
    let output ← entry.view.encode (.init memory) heap
    let (ok, decoded, _) := self.decode stack output
    if ok then some decoded else none

def run : List Step → BufferEntry → Option BufferEntry
  | [], entry => some entry
  | step :: chain, entry => (step.run entry).bind (run chain)

/-- The key and the area that was merged into it come out of the last entry of the chain. -/
def Inverse (origin : Origin) (self : BufferEntry) (chain : List Step) (key : List UInt8)
    (area : UInt32) : Prop :=
  ∃ entry decoded, run chain ((origin.hold self key).mergeArea area) = some entry ∧
    entry.decodeArea = some (area, decoded) ∧ decoded.bytes = key ∧ decoded.size = key.length

/-- The step hands on the memory of the entry as it is. -/
def Step.Shares (alloc : Bool) : Step → Prop
  | copy => alloc = false
  | assignSelf => True
  | assign _ => alloc = false
  | clone _ => False
  | transfer .. => False

def Step.IsTransfer : Step → Prop
  | transfer .. => True
  | _ => False

/-- No step copies an entry that owns its data, and none makes one. -/
def Shared (origin : Origin) (chain : List Step) : Prop := ∀ step ∈ chain, step.Shares origin.alloc

/-- An entry that is read from a block has data of a multiple of 256 bytes. -/
def Telling (chain : List Step) (key : List UInt8) : Prop :=
  (∃ step ∈ chain, step.IsTransfer) → ¬ 256 ∣ key.length

variable {entry entry' self decoded : BufferEntry} {key newData : List UInt8} {area : UInt32}
  {needAlloc : Bool} {origin : Origin} {step : Step} {chain : List Step}

-- ---------------------------------------------------------------------------
-- The area in two bytes
-- ---------------------------------------------------------------------------

def areaBytes (area : UInt32) : List UInt8 := [area.toUInt8, (area >>> 8).toUInt8]

theorem areaOf_areaBytes (harea : area < 1024) : areaOf (areaBytes area ++ key) = area := by
  have hlt : area.toNat < 1024 := UInt32.lt_iff_toNat_lt.mp harea
  have hlow : (areaBytes area ++ key).getD 0 0 = area.toUInt8 := rfl
  have hhigh : (areaBytes area ++ key).getD 1 0 = (area >>> 8).toUInt8 := rfl
  rw [areaOf, hlow, hhigh]
  apply UInt32.toNat_inj.mp
  have hdiv : (area >>> 8).toUInt8.toUInt32.toNat = area.toNat / 256 := by
    simp [UInt32.toNat_shiftRight, Nat.shiftRight_eq_div_pow]
    omega
  have hmod : area.toUInt8.toUInt32.toNat = area.toNat % 256 := by simp
  rw [UInt32.toNat_or, UInt32.toNat_shiftLeft, hdiv, hmod]
  have hshift : (area.toNat / 256) <<< ((8 : UInt32).toNat % 32) % 2 ^ 32 =
      2 ^ 8 * (area.toNat / 256) := by
    rw [Nat.shiftLeft_eq]
    simp
    omega
  have hbyte : area.toNat % 256 < 2 ^ 8 := Nat.mod_lt _ (by decide)
  rw [hshift, ← Nat.two_pow_add_eq_or_of_lt hbyte]
  exact Nat.div_add_mod area.toNat 256

-- ---------------------------------------------------------------------------
-- Where `decode_area` finds the key
-- ---------------------------------------------------------------------------

/-- The area and the key are at the start of the memory, and `data` is there, too. -/
structure Merged (entry : BufferEntry) (key : List UInt8) (area : UInt32) : Prop where
  hasMerged : entry.hasMerged = true
  data : entry.data = 0
  size : entry.size = key.length + 2
  mTrueSize : entry.mTrueSize = key.length + 2
  memory : entry.mTrueData.take (key.length + 2) = areaBytes area ++ key

/-- Where `decode_area` takes the data to begin they begin already. -/
structure Stuck (entry : BufferEntry) : Prop where
  bytes : (entry.mTrueData.drop 2).take (entry.mTrueSize - 2) = entry.bytes
  owned : entry.alloc = true ∨ entry.bytes = []

theorem Merged.bytes (h : Merged entry key area) : entry.bytes = areaBytes area ++ key := by
  rw [BufferEntry.bytes, h.data, h.size, List.drop_zero, h.memory]

theorem setData_bytes : (self.setData newData needAlloc).bytes = newData := by
  cases needAlloc with
  | false => simp [setData, BufferEntry.bytes]
  | true =>
    cases newData with
    | nil => rfl
    | cons b newData => simp [setData, BufferEntry.bytes]

theorem setData_stuck (h : needAlloc = true ∨ newData = []) :
    Stuck (self.setData newData needAlloc) := by
  refine ⟨?_, ?_⟩
  · rw [setData_bytes]
    cases newData with
    | nil =>
      cases needAlloc with
      | false => rfl
      | true => rfl
    | cons b newData =>
      have halloc : needAlloc = true := h.resolve_right (List.cons_ne_nil b newData)
      simp [setData, halloc]
  · rw [setData_bytes]
    cases newData with
    | nil => exact .inr rfl
    | cons b newData =>
      have halloc : needAlloc = true := h.resolve_right (List.cons_ne_nil b newData)
      exact .inl (by simp [setData, halloc])

theorem copyFrom_bytes : (self.copyFrom entry needAlloc).bytes = entry.bytes := by
  have hset : (self.setData entry.bytes needAlloc).bytes = entry.bytes := setData_bytes
  exact hset

theorem copyFrom_stuck (h : needAlloc = true ∨ entry.bytes = []) :
    Stuck (self.copyFrom entry needAlloc) := by
  have hset : Stuck (self.setData entry.bytes needAlloc) := setData_stuck h
  exact ⟨hset.bytes, hset.owned⟩

/-- A copy that borrows the memory is as the entry was. -/
theorem Merged.copyFrom (h : Merged entry key area) : Merged (self.copyFrom entry false) key area := by
  have hlen : (areaBytes area ++ key).length = key.length + 2 := by
    simp [areaBytes]
  constructor
  · exact h.hasMerged
  · rfl
  · change entry.bytes.length = _
    rw [h.bytes, hlen]
  · change entry.bytes.length = _
    rw [h.bytes, hlen]
  · change entry.bytes.take _ = _
    rw [h.bytes, List.take_of_length_le (Nat.le_of_eq hlen)]

/-- However an entry holds a key, the area comes before it. -/
theorem mergeArea_merged (origin : Origin) (self : BufferEntry) (area : UInt32) (hkey : key ≠ []) :
    Merged ((origin.hold self key).mergeArea area) key area ∧
      ((origin.hold self key).mergeArea area).alloc = origin.alloc := by
  have hpos : 0 < key.length := List.length_pos_iff.mpr hkey
  cases origin with
  | owned =>
    refine ⟨?_, ?_⟩
    · constructor <;> simp [Origin.hold, setData, mergeArea, hpos, freeData, store, areaBytes]
    · simp [Origin.hold, setData, mergeArea, hpos, freeData, Origin.alloc]
  | borrowed =>
    refine ⟨?_, ?_⟩
    · constructor <;>
        simp [Origin.hold, setData, mergeArea, freeData, areaBytes, BufferEntry.bytes]
    · simp [Origin.hold, setData, mergeArea, freeData, Origin.alloc]
  | alloced =>
    refine ⟨?_, ?_⟩
    · constructor <;>
        simp [Origin.hold, setAllocedData, mergeArea, freeData, areaBytes, BufferEntry.bytes]
    · simp [Origin.hold, setAllocedData, mergeArea, freeData, Origin.alloc]

theorem Merged.decodeArea (h : Merged entry key area) (hkey : key ≠ []) (harea : area < 1024) :
    ∃ decoded, entry.decodeArea = some (area, decoded) ∧ decoded.bytes = key ∧
      decoded.size = key.length := by
  have hpos : 0 < key.length := List.length_pos_iff.mpr hkey
  have hlong : 2 < entry.size := by
    rw [h.size]
    omega
  have hsize : entry.mTrueSize - 2 = key.length := by
    rw [h.mTrueSize]
    omega
  refine ⟨{ entry with area, hasMerged := false, data := 2, size := entry.mTrueSize - 2 }, ?_, ?_, hsize⟩
  · rw [BufferEntry.decodeArea, if_pos h.hasMerged, if_pos hlong, h.bytes, areaOf_areaBytes harea]
  · have hdrop := congrArg (List.drop 2) h.memory
    rw [List.drop_take] at hdrop
    change (entry.mTrueData.drop 2).take (entry.mTrueSize - 2) = key
    rw [hsize]
    exact hdrop

/-- From a stuck entry `decode_area` takes nothing away. -/
theorem Stuck.decodeArea {target : UInt32} (h : Stuck entry)
    (hdecode : entry.decodeArea = some (target, decoded)) : decoded.bytes = entry.bytes := by
  unfold BufferEntry.decodeArea at hdecode
  split at hdecode
  · split at hdecode
    · cases hdecode
      exact h.bytes
    · cases hdecode
  · cases hdecode
    rfl

-- ---------------------------------------------------------------------------
-- What comes out of a block
-- ---------------------------------------------------------------------------

theorem length_readData {size : Nat} {input : CMemblock} : (readData size input).1.length = size := by
  unfold readData
  split
  · have hread : ((input.read size).1.getD []).length ≤ size := by
      unfold CMemblock.read
      split
      · simp
      · split
        · simp only [Option.getD_some, List.length_take]
          omega
        · simp
    simp only [List.length_append, List.length_replicate]
    omega
  · simp only [List.length_nil]
    omega

/-- The number of 32 bits that is read last is the size. -/
theorem decodeRest_length {old : DataEntry} {stack : Locals} {tempMerged : UInt8} {input : CMemblock} :
    (old.decodeRest stack tempMerged area input).1.data.length =
      ((Tair.assign stack.msize (old.dataMeta.decode stack input.readU16.2).2.readU32).1 &&&
        PREFIX_KEY_MASK).toNat := by
  rw [DataEntry.decodeRest]
  exact length_readData

/-- Its lower byte is zero. -/
theorem msize_dvd {old : UInt32} {input : CMemblock} (hsize : 1 < input.muSize) :
    256 ∣ ((Tair.assign old input.readU32).1 &&& PREFIX_KEY_MASK).toNat := by
  obtain ⟨v, hread⟩ : ∃ v, input.readU32 = (some v, input) := by
    unfold CMemblock.readU32
    rw [if_neg (by omega)]
    exact ⟨_, rfl⟩
  have hdvd := CMemblock.readU32_dvd hread
  rw [hread, Tair.assign, Option.getD_some, UInt32.toNat_and]
  have hmod : v.toNat % 2 ^ 8 = 0 := Nat.mod_eq_zero_of_dvd hdvd
  apply Nat.dvd_of_mod_eq_zero
  change _ % 2 ^ 8 = 0
  rw [Nat.and_mod_two_pow, hmod, Nat.zero_and]

theorem decodeRest_dvd {old : DataEntry} {stack : Locals} {tempMerged : UInt8} {input : CMemblock}
    (hsize : 1 < (old.dataMeta.decode stack input.readU16.2).2.muSize) :
    256 ∣ (old.decodeRest stack tempMerged area input).1.data.length := by
  rw [decodeRest_length]
  exact msize_dvd hsize

theorem decode_length {old decoded : DataEntry} {stack : Locals} {input output : CMemblock}
    (hsize : 3 < input.muSize) (hdecode : old.decode stack input = (true, decoded, output)) :
    256 ∣ decoded.data.length := by
  have h : Skimmed input input 0 := ⟨rfl, Nat.le_refl _⟩
  have h := (h.readU8 (by omega)).readU32.readU16
  have hleft := (h.decodeMeta (by omega) old.freeData.dataMeta stack).size_le
  unfold DataEntry.decode at hdecode
  dsimp only at hdecode
  split at hdecode
  · cases hdecode
  · have heq := congrArg Prod.fst (Prod.mk.inj hdecode).2
    subst heq
    apply decodeRest_dvd
    simp only [Tair.assign]
    omega

/-- What `decode` reads it keeps like a copy of its own. -/
theorem decode_stuck (self : BufferEntry) (stack : Locals) (input : CMemblock) :
    Stuck (self.decode stack input).2.1 ∧
      (self.decode stack input).2.1.bytes = (self.freeData.view.decode stack input).2.1.data := by
  rw [decode]
  generalize self.freeData.view.decode stack input = result
  obtain ⟨ok, decoded, output⟩ := result
  have hset : Stuck (self.freeData.setData decoded.data true) := setData_stuck (.inl rfl)
  have hbytes : (self.freeData.setData decoded.data true).bytes = decoded.data := setData_bytes
  dsimp only
  split
  · exact ⟨⟨hset.bytes, hset.owned⟩, hbytes⟩
  · rename_i hempty
    have hnil : decoded.data = [] := by simpa using hempty
    rw [hnil]
    exact ⟨⟨rfl, .inr rfl⟩, rfl⟩

theorem transfer_stuck {heap : Heap} {spare : Nat} {stack : Locals}
    (hrun : (Step.transfer self heap spare stack).run entry = some entry') :
    Stuck entry' ∧ 256 ∣ entry'.bytes.length := by
  simp only [Step.run, Option.bind_eq_bind, Option.bind_eq_some_iff] at hrun
  obtain ⟨memory, hnew, output, hencode, hdecode⟩ := hrun
  split at hdecode
  · rename_i hok
    cases hdecode
    obtain ⟨hstuck, hbytes⟩ := decode_stuck self stack output
    have hlen := heap.length_new hnew
    have hle := heap.new_le hnew
    have hroom : entry.view.encodedSize ≤ memory.length := by omega
    have hpos : 0 < memory.length := by
      have : 0 < entry.view.encodedSize := by
        unfold DataEntry.encodedSize
        omega
      omega
    have hlayout := CMemblock.layout_init hpos (by omega)
    obtain ⟨-, hsize⟩ := encode_size hlayout hroom hencode
    have hread : self.freeData.view.decode stack output =
        (true, (self.freeData.view.decode stack output).2.1,
          (self.freeData.view.decode stack output).2.2) := Prod.ext hok rfl
    refine ⟨hstuck, ?_⟩
    rw [hbytes]
    exact decode_length (by omega) hread
  · cases hdecode

-- ---------------------------------------------------------------------------
-- Chains
-- ---------------------------------------------------------------------------

/-- The data that come out are not the key: the area is left before it, or they were read from
a block. -/
structure Lost (crossed : Prop) (entry : BufferEntry) (key : List UInt8) (area : UInt32) : Prop where
  stuck : Stuck entry
  bytes : entry.bytes = areaBytes area ++ key ∨ crossed ∧ 256 ∣ entry.bytes.length

/-- A step that shares the memory keeps the area where it is looked for. -/
theorem Merged.shares (h : Merged entry key area) (hstep : step.Shares entry.alloc) :
    ∃ entry', step.run entry = some entry' ∧ Merged entry' key area ∧ entry'.alloc = entry.alloc := by
  cases step with
  | copy =>
    have halloc : entry.alloc = false := hstep
    refine ⟨_, rfl, ?_, ?_⟩
    · rw [copy, halloc]
      exact h.copyFrom
    · rw [copy, halloc]
      rfl
  | assignSelf => exact ⟨entry, rfl, h, rfl⟩
  | assign self =>
    have halloc : entry.alloc = false := hstep
    refine ⟨_, rfl, ?_, ?_⟩
    · rw [assign, halloc]
      exact h.copyFrom
    · rw [assign, halloc]
      rfl
  | clone self => cases hstep
  | transfer self heap spare stack => cases hstep

/-- Any other step loses it. -/
theorem Merged.loses {crossed : Prop} (h : Merged entry key area) (hstep : ¬ step.Shares entry.alloc)
    (hcrossed : step.IsTransfer → crossed) (hrun : step.run entry = some entry') :
    Lost crossed entry' key area := by
  cases step with
  | copy =>
    cases hrun
    have halloc : entry.alloc = true := by simpa [Step.Shares] using hstep
    exact ⟨copyFrom_stuck (.inl halloc), .inl (copyFrom_bytes.trans h.bytes)⟩
  | assignSelf => exact absurd trivial hstep
  | assign self =>
    cases hrun
    have halloc : entry.alloc = true := by simpa [Step.Shares] using hstep
    exact ⟨copyFrom_stuck (.inl halloc), .inl (copyFrom_bytes.trans h.bytes)⟩
  | clone self =>
    cases hrun
    exact ⟨copyFrom_stuck (.inl rfl), .inl (copyFrom_bytes.trans h.bytes)⟩
  | transfer self heap spare stack =>
    obtain ⟨hstuck, hdvd⟩ := transfer_stuck hrun
    exact ⟨hstuck, .inr ⟨hcrossed trivial, hdvd⟩⟩

/-- No step finds it again. -/
theorem Lost.again {crossed : Prop} (h : Lost crossed entry key area)
    (hcrossed : step.IsTransfer → crossed) (hrun : step.run entry = some entry') :
    Lost crossed entry' key area := by
  cases step with
  | copy =>
    cases hrun
    exact ⟨copyFrom_stuck h.stuck.owned, copyFrom_bytes.symm ▸ h.bytes⟩
  | assignSelf =>
    cases hrun
    exact h
  | assign self =>
    cases hrun
    exact ⟨copyFrom_stuck h.stuck.owned, copyFrom_bytes.symm ▸ h.bytes⟩
  | clone self =>
    cases hrun
    exact ⟨copyFrom_stuck (.inl rfl), copyFrom_bytes.symm ▸ h.bytes⟩
  | transfer self heap spare stack =>
    obtain ⟨hstuck, hdvd⟩ := transfer_stuck hrun
    exact ⟨hstuck, .inr ⟨hcrossed trivial, hdvd⟩⟩

theorem Lost.run {crossed : Prop} (h : Lost crossed entry key area)
    (hcrossed : ∀ step ∈ chain, step.IsTransfer → crossed) (hrun : run chain entry = some entry') :
    Lost crossed entry' key area := by
  induction chain generalizing entry with
  | nil =>
    cases hrun
    exact h
  | cons step chain ih =>
    obtain ⟨entry₁, hstep, hrest⟩ := Option.bind_eq_some_iff.mp hrun
    have h₁ := h.again (hcrossed step List.mem_cons_self) hstep
    exact ih h₁ (fun step hin => hcrossed step (List.mem_cons_of_mem _ hin)) hrest

/-- Where all steps share the memory the chain ends with the area where it was. -/
theorem Merged.run_shares (h : Merged entry key area)
    (hchain : ∀ step ∈ chain, step.Shares entry.alloc) :
    ∃ entry', run chain entry = some entry' ∧ Merged entry' key area := by
  induction chain generalizing entry with
  | nil => exact ⟨entry, rfl, h⟩
  | cons step chain ih =>
    obtain ⟨entry₁, hstep, h₁, halloc⟩ := h.shares (hchain step List.mem_cons_self)
    obtain ⟨entry', hrest, h'⟩ := ih h₁ fun step hin => by
      rw [halloc]
      exact hchain step (List.mem_cons_of_mem _ hin)
    refine ⟨entry', ?_, h'⟩
    rw [run, hstep, Option.bind_some, hrest]

/-- Where one does not, it is lost at the end. -/
theorem Merged.run_loses (crossed : Prop) (h : Merged entry key area)
    (hcrossed : ∀ step ∈ chain, step.IsTransfer → crossed)
    (hchain : ¬ ∀ step ∈ chain, step.Shares entry.alloc) (hrun : run chain entry = some entry') :
    Lost crossed entry' key area := by
  induction chain generalizing entry with
  | nil => exact absurd (fun step hin => nomatch hin) hchain
  | cons step chain ih =>
    obtain ⟨entry₁, hstep, hrest⟩ := Option.bind_eq_some_iff.mp hrun
    have hcrossed' : ∀ step ∈ chain, step.IsTransfer → crossed :=
      fun step hin => hcrossed step (List.mem_cons_of_mem _ hin)
    by_cases hshares : step.Shares entry.alloc
    · obtain ⟨entry₂, hstep', h₁, halloc⟩ := h.shares hshares
      rw [hstep] at hstep'
      cases hstep'
      refine ih h₁ hcrossed' (fun hall => hchain fun step' hin => ?_) hrest
      rw [halloc] at hall
      cases List.mem_cons.mp hin with
      | inl heq => exact heq ▸ hshares
      | inr hin => exact hall step' hin
    · exact (h.loses hshares (hcrossed step List.mem_cons_self) hstep).run hcrossed' hrest

-- ---------------------------------------------------------------------------
-- The inverse
-- ---------------------------------------------------------------------------

theorem inverse_of_shared (hkey : key ≠ []) (harea : area < 1024) (hshared : Shared origin chain) :
    Inverse origin self chain key area := by
  obtain ⟨hmerged, halloc⟩ := mergeArea_merged origin self area hkey
  rw [Shared, ← halloc] at hshared
  obtain ⟨entry', hrun, h'⟩ := hmerged.run_shares hshared
  obtain ⟨decoded, hdecode, hbytes, hsize⟩ := h'.decodeArea hkey harea
  exact ⟨entry', decoded, hrun, hdecode, hbytes, hsize⟩

theorem shared_of_inverse (hkey : key ≠ []) (htelling : Telling chain key)
    (h : Inverse origin self chain key area) : Shared origin chain := by
  by_contra hshared
  obtain ⟨entry', decoded, hrun, hdecode, hbytes, -⟩ := h
  obtain ⟨hmerged, halloc⟩ := mergeArea_merged origin self area hkey
  rw [Shared, ← halloc] at hshared
  have hlost := hmerged.run_loses (∃ step ∈ chain, step.IsTransfer)
    (fun step hin htransfer => ⟨step, hin, htransfer⟩) hshared hrun
  have hsame := hlost.stuck.decodeArea hdecode
  rw [hbytes] at hsame
  cases hlost.bytes with
  | inl hleft =>
    have hlen := congrArg List.length (hsame.trans hleft)
    simp only [areaBytes, List.length_append, List.length_cons, List.length_nil] at hlen
    omega
  | inr hcrossed =>
    rw [← hsame] at hcrossed
    exact htelling hcrossed.1 hcrossed.2

/-- For every way to hold a key and every chain: the area and the key come out again, for all
keys and areas, if and only if no step copies data that the entry owns and none goes through a
block. Where they do not, they come out for no key at all, but for keys of a multiple of 256
bytes behind a block. -/
theorem inverse_iff (origin : Origin) (self : BufferEntry) (chain : List Step) :
    ((∀ key area, key ≠ [] → area < 1024 → Inverse origin self chain key area) ↔
      Shared origin chain) ∧
    ∀ key area, key ≠ [] → area < 1024 → Telling chain key →
      (Inverse origin self chain key area ↔ Shared origin chain) := by
  have hone : Telling chain [0] := fun _ => by decide
  refine ⟨⟨fun hall => ?_, fun hshared key area hkey harea => inverse_of_shared hkey harea hshared⟩,
    fun key area hkey harea htelling =>
      ⟨shared_of_inverse hkey htelling, inverse_of_shared hkey harea⟩⟩
  exact shared_of_inverse (List.cons_ne_nil 0 []) hone (hall [0] 0 (by simp) (by decide))

/-- A borrowed key and a copy of it give the area back, an owned key and a copy do not. -/
theorem inverse_borrowed :
    (Inverse .borrowed init [.copy] [97] 1 ∧ Shared .borrowed [.copy]) ∧
    ¬ Inverse .owned init [.copy] [97] 1 ∧ ¬ Shared .owned [.copy] := by
  have hborrowed := (inverse_iff .borrowed init [.copy]).2 [97] 1 (by simp) (by decide)
    fun _ => by decide
  have howned := (inverse_iff .owned init [.copy]).2 [97] 1 (by simp) (by decide) fun _ => by decide
  have hshared : Shared .borrowed [.copy] := by
    intro step hstep
    obtain rfl := List.mem_singleton.mp hstep
    rfl
  have hnot : ¬ Shared .owned [.copy] := by
    intro hall
    have hcopy : Origin.owned.alloc = false := hall .copy List.mem_cons_self
    exact absurd hcopy (by decide)
  exact ⟨⟨hborrowed.mpr hshared, hshared⟩, fun hinverse => hnot (howned.mp hinverse), hnot⟩

/-- A copy of an owned key has the area left before the key. -/
theorem not_inverse_owned : ¬ Inverse .owned init [.copy] [97] 1 := by
  intro h
  obtain ⟨entry, decoded, hrun, hdecode, hbytes, -⟩ := h
  cases hrun
  cases hdecode
  exact absurd hbytes (by decide)

end BufferEntry

end Tair
