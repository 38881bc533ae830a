-- SUMMARY: The raw calls of mdb_manager, put, get and remove by bare bytes, and get_meta.
import NetworkEtc.Mdb.StoreRun

/-!
# Raw calls

`raw_put`, `raw_get` and `raw_remove` take keys and values as they are, without the meta data of
an entry. `raw_put` looks for the deleted flag of the item it replaces, but not where flags are:
it tests a bit of the item's size.
-/

namespace Mdb

open Library

/-- An `item_id` as a number. -/
def ItemId.bits (id : ItemId) : BitVec 64 :=
  id.flags ++ id.slabId ++ id.pageId ++ id.offset ++ id.slabSize

/-- `IS_DELETED` -/
def isDeleted (flag : BitVec 64) : Bool := flag &&& TAIR_ITEM_FLAG_DELETED.setWidth 64 ≠ 0

/-- Of an item id the macro sees a bit of the size. -/
theorem isDeleted_bits (id : ItemId) : isDeleted id.bits = id.slabSize.getLsbD 1 := by
  have hbit : id.bits.getLsbD 1 = id.slabSize.getLsbD 1 := by
    rw [ItemId.bits, BitVec.getLsbD_append]
    rfl
  have htwo : TAIR_ITEM_FLAG_DELETED.setWidth 64 = BitVec.twoPow 64 1 := by decide
  rw [← hbit, isDeleted, htwo, BitVec.and_twoPow]
  cases id.bits.getLsbD 1 with
  | true => decide
  | false => decide

/-- What is told of an item. -/
def MdbItem.header (it : MdbItem) : ItemMeta where
  keysize := UInt16.ofNat it.keyLen.toNat
  version := it.version
  valsize := it.dataLen.setWidth 24
  flag := it.itemId.itemFlags
  mdate := it.updateTime
  edate := it.exptime

namespace Store

/-- What `raw_put` writes into the item it has got. -/
def rawFill (it : MdbItem) (key value : List UInt8) (flag : BitVec 8)
    (expired crrntTime : UInt32) : MdbItem :=
  let keyLen := BitVec.ofNat 12 key.length
  let dataLen := BitVec.ofNat 20 value.length
  { it with
    keyLen
    dataLen
    updateTime := crrntTime
    version := 0
    exptime :=
      if 0 < expired then if crrntTime < expired then expired else crrntTime + expired else 0
    itemId := it.itemId.setItemFlags flag
    data := key.take keyLen.toNat ++ value.take dataLen.toNat }

/-- The first part of `raw_put`: the item with the key goes, and `old_flag` is what is kept of its
flags. -/
def rawDrop (s : Store) (key : List UInt8) : Option (BitVec 8 × Store) := do
  match ← s.find key with
  | none => some (0, s)
  | some a => do
    let oldFlag := if isDeleted (s.mem.item a).itemId.bits then TAIR_ITEM_FLAG_DELETED else 0
    let s ← s.removeItem a
    some (oldFlag, s)

/-- `raw_put` -/
def rawPut (s : Store) (key value : List UInt8) (flag : BitVec 32)
    (expired crrntTime evictTime : UInt32) : Option (Int × Store) := do
  let (oldFlag, s) ← s.rawDrop key
  let (a, s) ← s.takePlace (totalSize key value) (keyArea key) evictTime
  let s := s.setItem a fun it =>
    rawFill it key value ((flag ||| oldFlag.setWidth 32).setWidth 8) expired crrntTime
  some (0, (s.insert a).addStat a)

/-- `raw_get`: the answer and the value. -/
def rawGet (s : Store) (key value : List UInt8) (time : UInt32) :
    Option ((Int × List UInt8) × Store) := do
  let ((expired, item), s) ← s.removeIfExpired key time
  match item with
  | none =>
    let code := if expired then TAIR_RETURN_DATA_EXPIRED else TAIR_RETURN_DATA_NOT_EXIST
    some ((code, value), s)
  | some a => do
    let value := (s.mem.item a).value
    let s ← s.updateItem a
    some ((TAIR_RETURN_SUCCESS, value), s)

/-- `raw_remove` -/
def rawRemove (s : Store) (key : List UInt8) : Option (Int × Store) := do
  match ← s.find key with
  | none => some (TAIR_RETURN_DATA_NOT_EXIST, s)
  | some a => do
    let s ← s.removeItem a
    some (TAIR_RETURN_SUCCESS, s)

/-- `get_meta`: the answer, and what is filled in of `info`. -/
def getMeta (s : Store) (key : DataEntry) (info : ItemMeta) (time : UInt32) :
    Option ((Int × ItemMeta) × Store) := do
  let ((expired, item), s) ← s.removeIfExpired key.data time
  match item with
  | none =>
    let code := if expired then TAIR_RETURN_DATA_EXPIRED else TAIR_RETURN_DATA_NOT_EXIST
    some ((code, info), s)
  | some a => some ((TAIR_RETURN_SUCCESS, (s.mem.item a).header), s)

variable {s s' : Store} {g g' : Ledger} {key value : List UInt8} {flag : BitVec 32}
  {expired time crrntTime evictTime : UInt32} {x : ItemId}

theorem fills_rawFill {flag : BitVec 8} :
    Fills (fun it => rawFill it key value flag expired crrntTime) key value :=
  ⟨fun _ => ⟨rfl, rfl, rfl⟩, fun _ => rfl, fun _ => rfl, fun _ => rfl, fun _ => rfl⟩

/-! # The calls are made of changes -/

/-- The first part of a raw put removes the item with the key; the flag that is kept says nothing
but a bit of its size. -/
theorem Settled.rawDrop (h : s.Settled g) (hkey : key ≠ []) :
    (s.rawDrop key = some (0, s) ∧ ∀ y, g.InUse y → s.keyOf y ≠ key) ∨
    ∃ x s' g', g.InUse x ∧ s.keyOf x = key ∧ s.Removed s' g g' x ∧
      s.rawDrop key = some (if x.slabSize.getLsbD 1 then TAIR_ITEM_FLAG_DELETED else 0, s') := by
  unfold Store.rawDrop
  rcases h.toKept.find hkey with ⟨hfind, hnone⟩ | ⟨x, hx, hxkey, hfind⟩
  · rw [hfind]
    exact Or.inl ⟨rfl, hnone⟩
  · obtain ⟨s', g', hremove, hremoved⟩ := h.removeItem hx
    have hid : (s.mem.item x.addr).itemId.slabSize = x.slabSize :=
      (congrArg ItemId.slabSize (h.placed.item_id x hx) :)
    refine Or.inr ⟨x, s', g', hx, hxkey, hremoved, ?_⟩
    simp only [hfind, Option.bind_eq_bind, Option.bind_some, hremove, isDeleted_bits, hid]

/-- The second part puts the item. -/
theorem Settled.rawPlace {f : MdbItem → MdbItem} {a : Addr} {s₁ : Store} (h : s.Settled g)
    (hf : Fills f key value) (htwo : 2 ≤ key.length) (hkey : key.length < 4096)
    (hvalue : value.length < 2 ^ 20) (hnew : ∀ y, g.InUse y → s.keyOf y ≠ key)
    (htake : s.takePlace (totalSize key value) (keyArea key) evictTime = some (a, s₁)) :
    ∃ g', Changes (s, g) (((s₁.setItem a f).insert a).addStat a, g') := by
  have hfits : ∀ i, i < g.count → s.getSlabmng (totalSize key value) = some i →
      itemHeaderSize + key.length + value.length ≤ (g.shape i).slabSize := by
    intro i hi hslab
    have hsize := (getSlabmng_some hslab).2
    rw [totalSize_eq hkey hvalue] at hsize
    rw [← h.shape_eq i hi]
    omega
  rcases h.takePlace evictTime (totalSize key value) (keyArea key) with
    ⟨i, x, s₂, g', htake', hslab, hi, -, -, -, -, hfresh⟩ |
    ⟨i, x, s₂, s₃, htake', hslab, hi, -, -, -, -, -, hev, hremove⟩ | ⟨htake', -⟩
  · rw [htake, Option.some.injEq, Prod.mk.injEq] at htake'
    obtain ⟨rfl, rfl⟩ := htake'
    exact ⟨g', .single (.putNew (h.putNew hi hfresh hf htwo hkey hvalue (hfits i hi hslab) hnew
      rfl))⟩
  · rw [htake, Option.some.injEq, Prod.mk.injEq] at htake'
    obtain ⟨rfl, rfl⟩ := htake'
    exact ⟨_, .single (.putOver (h.putOver hi hev hf htwo hkey hvalue (hfits i hi hslab) hnew
      hremove rfl))⟩
  · rw [htake] at htake'
    exact absurd htake' (by simp)

theorem Settled.rawPut_changes {code : Int} (h : s.Settled g) (htwo : 2 ≤ key.length)
    (hkey : key.length < 4096) (hvalue : value.length < 2 ^ 20)
    (hput : s.rawPut key value flag expired crrntTime evictTime = some (code, s')) :
    ∃ g', Changes (s, g) (s', g') := by
  unfold Store.rawPut at hput
  simp only [Option.bind_eq_bind, Option.bind_eq_some_iff] at hput
  obtain ⟨⟨oldFlag, s₁⟩, hdrop, ⟨a, s₂⟩, htake, hput⟩ := hput
  obtain rfl := (Prod.mk.inj (Option.some.inj hput)).2
  rcases h.rawDrop (ne_nil_of_two_le htwo) with ⟨hdrop', hnone⟩ |
    ⟨x, s', g', hx, rfl, hremoved, hdrop'⟩
  · rw [hdrop, Option.some.injEq, Prod.mk.injEq] at hdrop'
    obtain ⟨rfl, rfl⟩ := hdrop'
    exact h.rawPlace fills_rawFill htwo hkey hvalue hnone htake
  · rw [hdrop, Option.some.injEq, Prod.mk.injEq] at hdrop'
    obtain ⟨-, rfl⟩ := hdrop'
    have hdropped : s.Dropped g (s.keyOf x) s₁ g' := .removed rfl hremoved
    obtain ⟨g₂, hchanges⟩ := hremoved.settled.rawPlace fills_rawFill htwo hkey hvalue
      (fun y hy => hdropped.keyOf_ne h hy) htake
    exact ⟨g₂, .head (.loss (.removed hremoved)) hchanges⟩

theorem Settled.rawGet_losses {r : Int × List UInt8} (h : s.Settled g) (htwo : 2 ≤ key.length)
    (hget : s.rawGet key value time = some (r, s')) : ∃ g', Losses (s, g) (s', g') := by
  unfold Store.rawGet at hget
  have hkey : ({ DataEntry.init with data := key } : DataEntry).data ≠ [] :=
    ne_nil_of_two_le htwo
  rcases h.removeIfExpired time hkey with ⟨hnone, -⟩ |
    ⟨x, hx, -, ⟨-, s₁, g₁, hremove, hremoved⟩ | ⟨-, hfound⟩⟩
  · simp only [hnone, Option.bind_eq_bind, Option.bind_some, Option.some.injEq,
      Prod.mk.injEq] at hget
    exact ⟨g, hget.2 ▸ .refl⟩
  · simp only [hremove, Option.bind_eq_bind, Option.bind_some, Option.some.injEq,
      Prod.mk.injEq] at hget
    exact ⟨g₁, hget.2 ▸ .single (.removed hremoved)⟩
  · obtain ⟨s₁, hupdate, htouched⟩ := h.updateItem hx
    simp only [hfound, Option.bind_eq_bind, Option.bind_some, hupdate, Option.some.injEq,
      Prod.mk.injEq] at hget
    exact ⟨g, hget.2 ▸ .single (.touched htouched)⟩

theorem Settled.rawRemove_losses {code : Int} (h : s.Settled g) (htwo : 2 ≤ key.length)
    (hremove : s.rawRemove key = some (code, s')) : ∃ g', Losses (s, g) (s', g') := by
  unfold Store.rawRemove at hremove
  rcases h.toKept.find (ne_nil_of_two_le htwo) with ⟨hfind, -⟩ | ⟨x, hx, -, hfind⟩
  · simp only [hfind, Option.bind_eq_bind, Option.bind_some, Option.some.injEq,
      Prod.mk.injEq] at hremove
    exact ⟨g, hremove.2 ▸ .refl⟩
  · obtain ⟨s₁, g₁, hitem, hremoved⟩ := h.removeItem hx
    simp only [hfind, Option.bind_eq_bind, Option.bind_some, hitem, Option.some.injEq,
      Prod.mk.injEq] at hremove
    exact ⟨g₁, hremove.2 ▸ .single (.removed hremoved)⟩

theorem Settled.getMeta_losses {entry : DataEntry} {info : ItemMeta} {r : Int × ItemMeta}
    (h : s.Settled g) (hkey : entry.IsKey) (hget : s.getMeta entry info time = some (r, s')) :
    ∃ g', Losses (s, g) (s', g') := by
  unfold Store.getMeta at hget
  rcases h.removeIfExpired time hkey.ne_nil with ⟨hnone, -⟩ |
    ⟨x, -, -, ⟨-, s₁, g₁, hremove, hremoved⟩ | ⟨-, hfound⟩⟩
  · simp only [hnone, Option.bind_eq_bind, Option.bind_some, Option.some.injEq,
      Prod.mk.injEq] at hget
    exact ⟨g, hget.2 ▸ .refl⟩
  · simp only [hremove, Option.bind_eq_bind, Option.bind_some, Option.some.injEq,
      Prod.mk.injEq] at hget
    exact ⟨g₁, hget.2 ▸ .single (.removed hremoved)⟩
  · simp only [hfound, Option.bind_eq_bind, Option.bind_some, Option.some.injEq,
      Prod.mk.injEq] at hget
    exact ⟨g, hget.2 ▸ .refl⟩

/-! # Flags -/

/-- The deleted flag of the old item is kept and the argument gives the others. -/
structure KeepsFlags (old new : ItemId) (flag : BitVec 32) : Prop where
  deleted : testFlag new.itemFlags TAIR_ITEM_FLAG_DELETED =
    (testFlag old.itemFlags TAIR_ITEM_FLAG_DELETED ||
      testFlag (flag.setWidth 8) TAIR_ITEM_FLAG_DELETED)
  others : ∀ i < 4, i ≠ 1 → new.flags.getLsbD i = flag.getLsbD i

instance (old new : ItemId) (flag : BitVec 32) : Decidable (KeepsFlags old new flag) :=
  decidable_of_iff (_ ∧ _) ⟨fun h => ⟨h.1, h.2⟩, fun h => ⟨h.deleted, h.others⟩⟩

theorem testFlag_deleted (flags : BitVec 8) :
    testFlag flags TAIR_ITEM_FLAG_DELETED = flags.getLsbD 1 := by
  have htwo : TAIR_ITEM_FLAG_DELETED = BitVec.twoPow 8 1 := by decide
  rw [testFlag, htwo, BitVec.and_twoPow]
  cases flags.getLsbD 1 with
  | true => decide
  | false => decide

/-- An item that is inserted is found at once. -/
theorem find_insert {a : Addr} (hid : (s.mem.item a).itemId ≠ 0)
    (haddr : (s.mem.item a).itemId.addr = a) (hkey : (s.mem.item a).key = key)
    (hlen : (s.mem.item a).keyLen.toNat = key.length) (hne : key ≠ []) :
    (s.insert a).find key = some (some a) := by
  have hself : ∀ next : ItemId, ((s.mem.setItem a fun it => { it with hNext := next }).item a) =
      { s.mem.item a with hNext := next } := fun next => Memory.item_setItem_self
  have hhead : (s.insert a).hashtable (s.getBucketIndex key) = (s.mem.item a).itemId := by
    unfold Store.insert
    simp only [hkey, Function.update_self]
  unfold Store.find
  rw [if_neg (fun hzero => hne (List.length_eq_zero_iff.mp hzero))]
  change (findIn _ key (maxItems + 1) ((s.insert a).hashtable (s.getBucketIndex key)) none).map _ =
    _
  rw [hhead, findIn, if_neg hid]
  simp only [haddr, mem_insert, hself]
  rw [if_pos ⟨hlen, hkey⟩]
  rfl

theorem mem_addStat {a : Addr} : (s.addStat a).mem = s.mem := rfl

theorem find_addStat {a : Addr} : (s.addStat a).find key = s.find key := rfl

/-- A place that is got is that of an item, with no flags. -/
theorem Settled.slot_takePlace {a : Addr} {s₁ : Store} {size : Int} {k : Nat} (h : s.Settled g)
    (htake : s.takePlace size k evictTime = some (a, s₁)) :
    (s₁.mem.item a).itemId.addr = a ∧ (s₁.mem.item a).itemId.clearFlags ≠ 0 ∧
      (s₁.mem.item a).itemId.flags = 0 := by
  have hplaced : ∀ {s₂ : Store} {g₂ : Ledger} {y : ItemId}, Placed s₂.mem g₂.InUse → g₂.InUse y →
      y.clearFlags ≠ 0 ∧ y.flags = 0 := by
    intro s₂ g₂ y hplaced hy
    have hclear := hplaced.clearFlags_eq hy
    exact ⟨hclear.symm ▸ hplaced.ne_zero y hy, by rw [← hclear]; rfl⟩
  rcases h.takePlace evictTime size k with
    ⟨i, x, s₂, g', htake', -, hi, -, hid, -, -, hfresh⟩ |
    ⟨i, x, s₂, s₃, htake', -, hi, -, hid, -, -, -, hev, -⟩ | ⟨htake', -⟩
  · rw [htake, Option.some.injEq, Prod.mk.injEq] at htake'
    obtain ⟨rfl, rfl⟩ := htake'
    rw [hid]
    exact ⟨rfl, hplaced hfresh.kept.placed ((hfresh.taken.inUse hi).mpr (Or.inl rfl))⟩
  · rw [htake, Option.some.injEq, Prod.mk.injEq] at htake'
    obtain ⟨rfl, rfl⟩ := htake'
    rw [hid]
    exact ⟨rfl, hplaced h.placed (Ledger.inUse_of hi hev.inSlab)⟩
  · rw [htake] at htake'
    exact absurd htake' (by simp)

/-- The new item's flags are those of the argument and the one that is kept of the old item. -/
theorem Settled.rawPut_flags {a : Addr} {code : Int} (h : s.Settled g)
    (hfind : s.find key = some (some a))
    (hput : s.rawPut key value flag expired crrntTime evictTime = some (code, s')) :
    ∃ b, s'.find key = some (some b) ∧ (s'.mem.item b).itemId.flags =
      (flag ||| (if (s.mem.item a).itemId.slabSize.getLsbD 1 then TAIR_ITEM_FLAG_DELETED
        else 0).setWidth 32).setWidth 4 := by
  have hne : key ≠ [] := by
    rintro rfl
    exact absurd hfind (by simp [Store.find])
  unfold Store.rawPut at hput
  simp only [Option.bind_eq_bind, Option.bind_eq_some_iff] at hput
  obtain ⟨⟨oldFlag, s₁⟩, hdrop, ⟨b, s₂⟩, htake, hput⟩ := hput
  obtain rfl := (Prod.mk.inj (Option.some.inj hput)).2
  obtain ⟨x, hx, rfl, hxa⟩ : ∃ x, g.InUse x ∧ s.keyOf x = key ∧ x.addr = a := by
    rcases h.toKept.find hne with ⟨hnone, -⟩ | ⟨x, hx, hxkey, hfind'⟩
    · rw [hfind] at hnone
      exact absurd hnone (by simp)
    · rw [hfind, Option.some.injEq, Option.some.injEq] at hfind'
      exact ⟨x, hx, hxkey, hfind'.symm⟩
  have hlen : (s.keyOf x).length < 4096 := by
    rw [keyOf, (h.whole x hx).length_key]
    exact (s.mem.item x.addr).keyLen.isLt
  have hid : (s.mem.item a).itemId.slabSize = x.slabSize := by
    rw [← hxa]
    exact (congrArg ItemId.slabSize (h.placed.item_id x hx) :)
  obtain ⟨g₁, hs₁, hold⟩ : ∃ g₁, s₁.Settled g₁ ∧
      oldFlag = if x.slabSize.getLsbD 1 then TAIR_ITEM_FLAG_DELETED else 0 := by
    rcases h.rawDrop hne with ⟨-, hnone⟩ | ⟨y, s₃, g₁, hy, hykey, hremoved, hdrop'⟩
    · exact absurd rfl (hnone x hx)
    · obtain rfl := h.keys y x hy hx hykey
      rw [hdrop, Option.some.injEq, Prod.mk.injEq] at hdrop'
      obtain ⟨rfl, rfl⟩ := hdrop'
      exact ⟨g₁, hremoved.settled, rfl⟩
  obtain ⟨haddr, hzero, hflags⟩ := hs₁.slot_takePlace htake
  refine ⟨b, ?_, ?_⟩
  · rw [find_addStat]
    apply find_insert
    · rw [mem_setItem, Memory.item_setItem_self]
      exact ItemId.ne_zero_of_clearFlags (hzero :)
    · rw [mem_setItem, Memory.item_setItem_self]
      exact haddr
    · rw [mem_setItem, Memory.item_setItem_self]
      exact fills_rawFill.key_eq hlen
    · rw [mem_setItem, Memory.item_setItem_self]
      exact fills_rawFill.toNat_keyLen hlen
    · exact hne
  · rw [mem_addStat, mem_insert, Memory.item_setItem_self, mem_setItem, Memory.item_setItem_self,
      hid, ← hold]
    change (s₂.mem.item b).itemId.flags ||| ((flag ||| oldFlag.setWidth 32).setWidth 8).setWidth 4 =
      _
    rw [hflags, show (0 : BitVec 4) = 0#4 from rfl, BitVec.zero_or,
      BitVec.setWidth_setWidth_of_le _ (by decide)]

/-- The flags are kept if and only if the argument has the deleted flag, or the old item has it
just when its size has the bit that is tested. -/
theorem keepsFlags_iff {old new : ItemId} (hflags : new.flags =
      (flag ||| (if old.slabSize.getLsbD 1 then TAIR_ITEM_FLAG_DELETED else 0).setWidth 32).setWidth
        4) :
    KeepsFlags old new flag ↔ testFlag (flag.setWidth 8) TAIR_ITEM_FLAG_DELETED = true ∨
      testFlag old.itemFlags TAIR_ITEM_FLAG_DELETED = old.slabSize.getLsbD 1 := by
  have hbit : ∀ i < 4, new.flags.getLsbD i =
      (flag.getLsbD i || (decide (i = 1) && old.slabSize.getLsbD 1)) := by
    intro i hi
    rw [hflags, BitVec.getLsbD_setWidth, BitVec.getLsbD_or]
    cases old.slabSize.getLsbD 1 with
    | true =>
      have hall : ∀ i < 4, (TAIR_ITEM_FLAG_DELETED.setWidth 32).getLsbD i = decide (i = 1) := by
        decide
      simp [hi, hall i hi]
    | false => simp [hi]
  have hnew : new.itemFlags.getLsbD 1 = (flag.getLsbD 1 || old.slabSize.getLsbD 1) := by
    have hone := hbit 1 (by decide)
    simpa [ItemId.itemFlags] using hone
  have harg : (flag.setWidth 8).getLsbD 1 = flag.getLsbD 1 := by simp
  have hothers : ∀ i < 4, i ≠ 1 → new.flags.getLsbD i = flag.getLsbD i := by
    intro i hi hne
    rw [hbit i hi]
    simp [hne]
  rw [testFlag_deleted, testFlag_deleted, harg]
  constructor
  · intro hkeeps
    have hdeleted := hkeeps.deleted
    rw [testFlag_deleted, testFlag_deleted, testFlag_deleted, hnew, harg] at hdeleted
    revert hdeleted
    cases flag.getLsbD 1 with
    | true => simp
    | false => simp [eq_comm]
  · intro hcond
    refine ⟨?_, hothers⟩
    rw [testFlag_deleted, testFlag_deleted, testFlag_deleted, hnew, harg]
    rcases hcond with htrue | heq
    · rw [htrue, Bool.or_true, Bool.true_or]
    · rw [heq, Bool.or_comm]

end Store

end Mdb
