-- SUMMARY: mem_cache and mdb_manager: put, get, remove, add_count, and keeping quotas.
import NetworkEtc.Mdb.HashMap
import NetworkEtc.Mdb.PagePool

/-!
# `mdb_manager`

Every call is given the readings of the clock it makes, in order. A call that fails an
assertion, or whose loop does not end, gives `none`.
-/

namespace Mdb

def TAIR_ITEM_FLAG_ADDCOUNT : BitVec 8 := 1
def TAIR_ITEM_FLAG_DELETED : BitVec 8 := 2
def TAIR_ITEM_FLAG_LOCKED : BitVec 8 := 8
def TAIR_RETURN_SUCCESS : Int := 0
def TAIR_RETURN_DATA_NOT_EXIST : Int := -3998
def TAIR_RETURN_VERSION_ERROR : Int := -3997
def TAIR_RETURN_DATA_EXPIRED : Int := -3988
def TAIR_RETURN_CANNOT_OVERRIDE : Int := -3981
def TAIR_RETURN_DEC_BOUNDS : Int := -3980
def TAIR_RETURN_DEC_ZERO : Int := -3979
def TAIR_RETURN_DEC_NOTFOUND : Int := -3978
def TAIR_RETURN_LOCK_EXIST : Int := -3975
def TAIR_OPERATION_UNLOCK : BitVec 16 := 8

/-- `test_flag` -/
def testFlag (flags flag : BitVec 8) : Bool := flags &&& flag ≠ 0

/-- `item_meta_info`, as far as the store sets it. -/
structure ItemMeta where
  keysize : UInt16
  version : UInt16
  valsize : BitVec 24
  flag : BitVec 8
  mdate : UInt32
  edate : UInt32
deriving DecidableEq

/-- `data_entry`, as the store uses it: a key with its area in front, or a value. -/
structure DataEntry where
  data : List UInt8
  area : Nat
  serverFlag : BitVec 16
  dataMeta : ItemMeta
deriving DecidableEq

/-- `data_entry()` -/
def DataEntry.init : DataEntry := ⟨[], 0, 0, ⟨0, 0, 0, 0, 0, 0⟩⟩

/-- `set_data` -/
def DataEntry.setData (e : DataEntry) (data : List UInt8) : DataEntry :=
  { e with data, area := 0 }

namespace Store

/-! # `mem_cache` -/

/-- The slab manager `i` with the memory. -/
def slab (s : Store) (i : Nat) : Slab := ⟨s.mem, s.slabs i⟩

def setSlab (s : Store) (i : Nat) (slab : Slab) : Store :=
  { s with mem := slab.mem, slabs := Function.update s.slabs i slab.mng }

/-- `get_slabmng`: the first slab whose items are large enough. -/
def getSlabmng (s : Store) (size : Int) : Option Nat :=
  (List.range s.slabsCount).find? fun i => size ≤ (s.slabs i).slabSize

/-- `is_quota_exceed` -/
def isQuotaExceed (s : Store) (area : Nat) : Bool :=
  (s.areaStat area).quota ≤ (s.areaStat area).dataSize

/-- `mem_cache::alloc_item`; no item is `NULL`. -/
def allocItem (s : Store) (size : Int) (area : Nat) (crrntTime : UInt32) :
    Option (Option (Addr × AllocType) × Store) :=
  match s.getSlabmng size with
  | none => some (none, s)
  | some i => do
    let (item, slab) ← (s.slab i).allocItem area (s.isQuotaExceed area) crrntTime
    some (item, s.setSlab i slab)

/-- `mem_cache::update_item` -/
def updateItem (s : Store) (a : Addr) : Option Store := do
  let i := (s.mem.item a).itemId.slabId.toNat
  let slab ← (s.slab i).updateItem a (s.mem.item a).area
  some (s.setSlab i slab)

/-- `mem_cache::free_item` -/
def freeItem (s : Store) (a : Addr) : Option Store :=
  let i := (s.mem.item a).itemId.slabId.toNat
  if i < s.slabsCount then do
    let slab ← (s.slab i).freeItem a
    some (s.setSlab i slab)
  else none

/-! # Area statistics -/

/-- The size the statistics count for an item. -/
def itemSize (it : MdbItem) : Nat := it.keyLen.toNat + it.dataLen.toNat

/-- What `__remove` and an eviction take off the statistics of the item's area. -/
def dropStat (s : Store) (a : Addr) : Store :=
  let it := s.mem.item a
  let stat := s.areaStat it.area
  { s with
    areaStat := Function.update s.areaStat it.area
      { stat with
        dataSize := stat.dataSize - UInt64.ofNat (itemSize it)
        spaceUsage := stat.spaceUsage - UInt64.ofNat it.itemId.slabSize.toNat
        itemCount := stat.itemCount - 1 } }

/-- What a put adds to them. -/
def addStat (s : Store) (a : Addr) : Store :=
  let it := s.mem.item a
  let stat := s.areaStat it.area
  { s with
    areaStat := Function.update s.areaStat it.area
      { stat with
        dataSize := stat.dataSize + UInt64.ofNat (itemSize it)
        spaceUsage := stat.spaceUsage + UInt64.ofNat it.itemId.slabSize.toNat
        itemCount := stat.itemCount + 1 } }

/-- An item is allocated; one that loses its place goes off the statistics and the table. -/
def takePlace (s : Store) (size : Int) (area : Nat) (evictTime : UInt32) :
    Option (Addr × Store) := do
  let (item, s) ← s.allocItem size area evictTime
  match item with
  | none => none
  | some (a, type) => do
    let s ← if type = .new then some s else (s.dropStat a).remove a
    some (a, s)

/-! # Removing items -/

/-- `__remove`. That `data_size` is below zero never holds of an unsigned number. -/
def removeItem (s : Store) (a : Addr) : Option Store := do
  let s := s.dropStat a
  let s ← s.remove a
  let s := s.setItem a fun it => { it with itemId := it.itemId.clearFlags }
  let s ← s.freeItem a
  some <| s.setItem a fun it =>
    { it with exptime := 0, dataLen := 0, keyLen := 0, version := 0, updateTime := 0 }

/-- `is_item_expired` -/
def isItemExpired (s : Store) (it : MdbItem) (currentTime : UInt32) : Bool :=
  (it.exptime ≠ 0 ∧ it.exptime < currentTime) ∨ it.updateTime < s.areaTimestamp it.area

/-- `remove_if_expired`: whether the item was removed, and the item if it was not. -/
def removeIfExpired (s : Store) (key : List UInt8) (time : UInt32) :
    Option ((Bool × Option Addr) × Store) := do
  match ← s.find key with
  | none => some ((false, none), s)
  | some a =>
    if s.isItemExpired (s.mem.item a) time then do
      let s ← s.removeItem a
      some ((true, none), s)
    else some ((false, some a), s)

/-! # `put` -/

/-- `total_size`, as an `int`. -/
def totalSize (key value : List UInt8) : Int :=
  Int.bmod (key.length + value.length + itemHeaderSize : Nat) (2 ^ 32)

/-- The first part of `do_put`, when there is an item with the key: the answer of a put
that is refused, or the version to go on with. -/
def replaceItem (s : Store) (a : Addr) (key value : DataEntry) (versionCare : Bool)
    (crrntTime : UInt32) : Option ((Int ⊕ UInt16) × Store) := do
  let it := s.mem.item a
  let version := key.dataMeta.version
  if value.serverFlag &&& TAIR_OPERATION_UNLOCK = 0 ∧
      testFlag it.itemId.itemFlags TAIR_ITEM_FLAG_LOCKED then
    some (.inl TAIR_RETURN_LOCK_EXIST, s)
  else if s.isItemExpired it crrntTime then do
    let s ← s.removeItem a
    some (.inr 0, s)
  else if versionCare ∧ version ≠ 0 ∧ it.version ≠ version then
    some (.inl TAIR_RETURN_VERSION_ERROR, s)
  else do
    let version := if versionCare then it.version else version
    let version :=
      if testFlag it.itemId.itemFlags TAIR_ITEM_FLAG_DELETED then 0 else version
    let s ← s.removeItem a
    some (.inr version, s)

/-- What `do_put` writes into the item it has got. -/
def fillItem (it : MdbItem) (key value : DataEntry) (version : UInt16) (expired : Int)
    (crrntTime : UInt32) : MdbItem :=
  let keyLen := BitVec.ofNat 12 key.data.length
  let dataLen := BitVec.ofNat 20 value.data.length
  let expired' := UInt32.ofInt expired
  { it with
    keyLen
    dataLen
    updateTime := crrntTime
    version
    exptime :=
      if 0 < expired then
        if crrntTime < expired' then expired' else crrntTime + expired'
      else it.exptime
    itemId := it.itemId.setItemFlags value.dataMeta.flag
    data := key.data.take keyLen.toNat ++ value.data.take dataLen.toNat }

/-- What `do_put` sets back in the key. -/
def putBack (key : DataEntry) (it : MdbItem) : DataEntry :=
  { key with
    dataMeta :=
      { key.dataMeta with
        version := it.version
        edate := it.exptime
        keysize := UInt16.ofNat it.keyLen.toNat
        valsize := it.dataLen.setWidth 24
        flag := it.itemId.itemFlags } }

/-- The second part of `do_put`: an item is allocated and written. -/
def placeItem (s : Store) (key value : DataEntry) (version : UInt16) (expired : Int)
    (crrntTime evictTime : UInt32) : Option ((Int × DataEntry) × Store) := do
  let (item, s) ← s.allocItem (totalSize key.data value.data) key.area evictTime
  match item with
  | none => none
  | some (a, type) =>
    let s ← if type = .new then some s else (s.dropStat a).remove a
    let s := s.setItem a fun it => fillItem it key value version expired crrntTime
    let key := putBack key (s.mem.item a)
    let s := s.insert a
    some ((TAIR_RETURN_SUCCESS, key), s.addStat a)

/-- `do_put`: the answer and the key as it is set back. -/
def doPut (s : Store) (key value : DataEntry) (versionCare : Bool) (expired : Int)
    (crrntTime evictTime : UInt32) : Option ((Int × DataEntry) × Store) := do
  let expired := if expired < 0 then 0 else expired
  let key := { key with area := keyArea key.data }
  let item ← s.find key.data
  let (found, s) ←
    match item with
    | none => some ((.inr 0 : Int ⊕ UInt16), s)
    | some a => s.replaceItem a key value versionCare crrntTime
  match found with
  | .inl code => some ((code, key), s)
  | .inr version =>
    let version := if versionCare then version + 1 else key.dataMeta.version
    s.placeItem key value version expired crrntTime evictTime

/-! # `get` and `remove` -/

/-- `do_get`: the answer, the key and the value. -/
def doGet (s : Store) (key value : DataEntry) (time : UInt32) :
    Option ((Int × DataEntry × DataEntry) × Store) := do
  let ((expired, item), s) ← s.removeIfExpired key.data time
  match item with
  | none =>
    let code := if expired then TAIR_RETURN_DATA_EXPIRED else TAIR_RETURN_DATA_NOT_EXIST
    some ((code, key, value), s)
  | some a =>
    let it := s.mem.item a
    if key.area = it.area then do
      let value := value.setData it.value
      let value :=
        { value with
          dataMeta :=
            { value.dataMeta with
              version := it.version
              edate := it.exptime
              keysize := UInt16.ofNat it.keyLen.toNat
              valsize := it.dataLen.setWidth 24
              flag := it.itemId.itemFlags } }
      let key := putBack key it
      let key := { key with dataMeta := { key.dataMeta with mdate := it.updateTime } }
      let s ← s.updateItem a
      some ((TAIR_RETURN_SUCCESS, key, value), s)
    else none

/-- `do_remove` -/
def doRemove (s : Store) (key : DataEntry) : Option ((Int × DataEntry) × Store) := do
  let key :=
    { key with dataMeta := { key.dataMeta with keysize := UInt16.ofNat key.data.length } }
  match ← s.find key.data with
  | none => some ((TAIR_RETURN_DATA_NOT_EXIST, key), s)
  | some a => do
    let s ← s.removeItem a
    some ((0, key), s)

/-- `do_lookup` -/
def doLookup (s : Store) (key : DataEntry) (time : UInt32) : Option (Bool × Store) :=
  if key.area = keyArea key.data then do
    match ← s.find key.data with
    | none => some (false, s)
    | some a =>
      if s.isItemExpired (s.mem.item a) time then do
        let s ← s.removeItem a
        some (false, s)
      else some (true, s)
  else some (false, s)

/-! # `add_count` -/

/-- `ITEM_HEAD_LENGTH` -/
def ITEM_HEAD_LENGTH : Nat := 2

/-- The counter behind the head of a value; what lies behind the value is read as zero. -/
def counterOf (data : List UInt8) : Int32 :=
  let byte := fun i => data.getD (ITEM_HEAD_LENGTH + i) 0
  (word (byte 0) (byte 1) (byte 2) (byte 3)).toInt32

/-- `fv`: the head and the four bytes of `count`. -/
def counterBytes (count : Int32) : List UInt8 :=
  let c := count.toUInt32
  [0, 22, c.toUInt8, (c >>> 8).toUInt8, (c >>> 16).toUInt8, (c >>> 24).toUInt8]

/-- The checks of `do_add_count` where the counter starts anew. -/
def startCount (count initValue : Int32) (notNegative : Bool) : Option Int :=
  if notNegative ∧ count < 0 ∧ initValue ≤ 0 then some TAIR_RETURN_DEC_NOTFOUND
  else if notNegative ∧ initValue + count < 0 then some TAIR_RETURN_DEC_BOUNDS
  else none

/-- What `do_add_count` makes of the value it has read: the answer if it goes no
further, `result_value`, and the value's entry. -/
def nextCount (rc : Int) (key oldValue : DataEntry) (count initValue : Int32)
    (notNegative : Bool) (resultValue : Int32) : Option Int × Int32 × DataEntry :=
  if rc = TAIR_RETURN_SUCCESS then
    if testFlag key.dataMeta.flag TAIR_ITEM_FLAG_ADDCOUNT then
      if testFlag key.dataMeta.flag TAIR_ITEM_FLAG_DELETED then
        match startCount count initValue notNegative with
        | some code => (some code, resultValue, oldValue)
        | none =>
          (none, initValue + count,
            { oldValue with
              dataMeta :=
                { oldValue.dataMeta with
                  flag := oldValue.dataMeta.flag &&& ~~~TAIR_ITEM_FLAG_DELETED } })
      else
        let v := counterOf oldValue.data
        if notNegative ∧ v ≤ 0 ∧ count < 0 then (some TAIR_RETURN_DEC_ZERO, resultValue, oldValue)
        else if notNegative ∧ v + count < 0 then (some TAIR_RETURN_DEC_BOUNDS, v, oldValue)
        else (none, v + count, oldValue)
    else (some TAIR_RETURN_CANNOT_OVERRIDE, resultValue, oldValue)
  else
    match startCount count initValue notNegative with
    | some code => (some code, resultValue, oldValue)
    | none => (none, initValue + count, oldValue)

/-- `do_add_count`: the answer, `result_value`, and the key. The bytes written are
those of `count`. -/
def doAddCount (s : Store) (key : DataEntry) (count initValue : Int32) (notNegative : Bool)
    (expired : Int) (resultValue : Int32) (getTime crrntTime evictTime : UInt32) :
    Option ((Int × Int32 × DataEntry) × Store) := do
  let ((rc, key, oldValue), s) ← s.doGet key .init getTime
  match nextCount rc key oldValue count initValue notNegative resultValue with
  | (some code, result, _) => some ((code, result, key), s)
  | (none, result, oldValue) =>
    let value := oldValue.setData (counterBytes count)
    let value :=
      { value with
        dataMeta :=
          { value.dataMeta with flag := value.dataMeta.flag ||| TAIR_ITEM_FLAG_ADDCOUNT } }
    let ((rc, key), s) ← s.doPut key value true expired crrntTime evictTime
    some ((rc, result, key), s)

/-! # Quotas -/

/-- `clear`, for one area. -/
def clear (s : Store) (area : Nat) (time : UInt32) : Option Store :=
  if area < TAIR_MAX_AREA_COUNT then
    some { s with areaTimestamp := Function.update s.areaTimestamp area time }
  else none

/-- `set_area_quota` -/
def setAreaQuota (s : Store) (area : Nat) (quota : UInt64) : Option Store :=
  if area < TAIR_MAX_AREA_COUNT then
    some
      { s with
        areaStat := Function.update s.areaStat area { s.areaStat area with quota := quota } }
  else none

/-- The inner loop of `keep_area_quota`: an item of the area from each of the slabs from
`i` on, until no bytes are left over. -/
def keepRound (area : Nat) (firstRound : Bool) : Nat → Nat → Store → UInt64 →
    Option (UInt64 × Store)
  | 0, _, s, exceed => some (exceed, s)
  | n + 1, i, s, exceed =>
    let mng := s.slabs i
    if mng.itemHead area = 0 ∨ mng.itemTail area = 0 then keepRound area firstRound n (i + 1) s exceed
    else if mng.itemCount area < UInt64.ofNat mng.perSlab ∧ firstRound then
      keepRound area firstRound n (i + 1) s exceed
    else do
      let a := (mng.itemTail area).addr
      let size := UInt64.ofNat (itemSize (s.mem.item a))
      let exceed := if size ≤ exceed then exceed - size else 0
      let s ← s.removeItem a
      if exceed = 0 then some (exceed, s)
      else keepRound area firstRound n (i + 1) s exceed

/-- The outer loop of `keep_area_quota`. -/
def keepLoop (area : Nat) : Nat → Bool → Store → UInt64 → Option Store
  | 0, _, _, _ => none
  | fuel + 1, firstRound, s, exceed =>
    if exceed = 0 then some s
    else do
      let (exceed, s) ← keepRound area firstRound s.slabsCount 0 s exceed
      keepLoop area fuel false s exceed

/-- `keep_area_quota`: the first round may remove nothing, any other removes a byte at
least. -/
def keepAreaQuota (s : Store) (area : Nat) (exceed : UInt64) : Option Store :=
  if area < TAIR_MAX_AREA_COUNT then keepLoop area (exceed.toNat + 2) true s exceed else none

/-- The body of the loop of `check_quota`. -/
def checkArea (s : Store) (i : Nat) : Option Store :=
  let stat := s.areaStat i
  if stat.dataSize = 0 then some s
  else if stat.quota < stat.dataSize then s.keepAreaQuota i (stat.dataSize - stat.quota)
  else some s

/-- `check_quota`, from area `i` on. -/
def checkFrom : Nat → Nat → Store → Option Store
  | 0, _, s => some s
  | n + 1, i, s => (s.checkArea i).bind (checkFrom n (i + 1))

/-- `check_quota` -/
def checkQuota (s : Store) : Option Store := checkFrom TAIR_MAX_AREA_COUNT 0 s

end Store

/-! # Starting -/

/-- How `slab_initialize` gets from one size to the next, `ALIGN((int) (start * factor))`,
for a factor above one. -/
structure Growth where
  next : Nat → Nat
  le_next : ∀ start, start ≤ next start

/-- The settings of a store. -/
structure MdbParam where
  totalPages : Nat
  totalPages_le : totalPages ≤ MAX_PAGES_NO
  metaPages : Nat
  hashShift : Nat
  slabBaseSize : Nat
  factor : Growth
  defaultAreaCapacity : Nat → UInt64

/-- The loop of `slab_initialize`, from slab `i` on, which may make `n` more. -/
def slabLoop (factor : Growth) : (n i start : Nat) → i + n = TAIR_SLAB_LARGEST →
    itemHeaderSize ≤ start → Memory → Option (List SlabManager × Memory)
  | 0, _, _, _, _, mem => some ([], mem)
  | n + 1, i, start, hi, hstart, mem =>
    if hend : start ≤ pageArea then do
      let size := if pageArea / 2 < start then pageArea else start
      let shape : SlabShape :=
        { slabId := i
          slabSize := size
          slabId_lt := by omega
          header_le := by
            change itemHeaderSize ≤ if pageArea / 2 < start then pageArea else start
            split
            · exact hstart.trans hend
            · exact hstart
          slabSize_le := by
            change (if pageArea / 2 < start then pageArea else start) ≤ pageArea
            split
            · exact le_rfl
            · exact hend }
      let slab ← Slab.preAlloc ⟨mem, .blank shape⟩
      let (slabs, mem) ← slabLoop factor n (i + 1) (factor.next size) (by omega)
        (shape.header_le.trans (factor.le_next size)) slab.mem
      some (slab.mng :: slabs, mem)
    else some ([], mem)

/-- What a slab manager and its list of pages take of the room for the slab managers. -/
def SlabShape.metaLen (g : SlabShape) : Nat := slabManagerSize + g.partialPagesBucketNum * 4

/-- `slab_initialize`: an item has at least 16 bytes besides its header, and the slab managers must
fit. -/
def slabInit (factor : Growth) (baseSize : Nat) (mem : Memory) :
    Option (List SlabManager × Memory) :=
  let slabs :=
    if h : baseSize < itemHeaderSize + 16 then
      slabLoop factor TAIR_SLAB_LARGEST 0 64 rfl (by decide) mem
    else if baseSize < pageSize then
      slabLoop factor TAIR_SLAB_LARGEST 0 baseSize rfl (by omega) mem
    else none
  slabs.filter fun (slabs, _) =>
    slabs.foldl (fun totalSize slab => totalSize + slab.metaLen) 0 < MEMCACHE_META_LEN

/-- `n` pages of the hash table. -/
def takePages : Nat → MemPool → Option MemPool
  | 0, pool => some pool
  | n + 1, pool => do
    let (page, pool) ← pool.allocPage
    match page with
    | none => none
    | some _ => takePages n pool

/-- The pages the hash table needs: `hash_table_pages`, and one at least. -/
def hashTablePages (shift : Nat) : Nat :=
  max 1 ((2 ^ shift * 8 + pageSize - 1) / pageSize)

/-- `mdb_manager::initialize`, in memory that is zero. -/
def Store.init (param : MdbParam) : Option Store :=
  if 0 < param.metaPages ∧ param.metaPages < param.totalPages then do
    let pool ← takePages (hashTablePages param.hashShift)
      (.init param.totalPages param.metaPages param.totalPages_le)
    let baseSize := if param.slabBaseSize = 0 then itemHeaderSize + 16 else param.slabBaseSize
    let (slabs, mem) ← slabInit param.factor baseSize
      { pool, page := fun _ => ⟨0, 0, 0, 0, 0⟩, item := fun _ => .zeroed }
    match slabs with
    | [] => none
    | first :: _ =>
      some
        { mem
          hashtable := fun _ => 0
          hashShift := param.hashShift
          slabs := fun i => slabs.getD i first
          slabsCount := slabs.length
          areaStat := fun area => ⟨param.defaultAreaCapacity area, 0, 0, 0⟩
          areaTimestamp := fun _ => 0 }
  else none

end Mdb
