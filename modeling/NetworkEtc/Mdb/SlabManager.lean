-- SUMMARY: The slab manager: page lists, taking and giving back items, eviction.
import NetworkEtc.Mdb.Memory

/-!
# `mem_cache::slab_manager`

A function of the source that fails an assertion gives `none` here. The counters
`item_total_count`, `evict_count` and `evict_total_count` are left out: nothing that is
modelled reads them.
-/

namespace Mdb

/-- `PARTIAL_PAGE_BUCKET`: every 10 items. -/
def PARTIAL_PAGE_BUCKET : Nat := 10

/-- What `slab_initialize` fixes for a slab. -/
structure SlabShape where
  slabId : Nat
  slabSize : Nat
  slabId_lt : slabId < TAIR_SLAB_LARGEST
  header_le : itemHeaderSize ≤ slabSize
  slabSize_le : slabSize ≤ pageArea

namespace SlabShape

def perSlab (g : SlabShape) : Nat := pageArea / g.slabSize

def partialPagesBucketNum (g : SlabShape) : Nat :=
  (g.perSlab + PARTIAL_PAGE_BUCKET - 1) / PARTIAL_PAGE_BUCKET

/-- The id of item `i` of a page. -/
def itemIdAt (g : SlabShape) (index i : Nat) : ItemId := .make g.slabSize i index g.slabId

/-- The loop of `init_page` up to item `n`. -/
def initItems (g : SlabShape) (index : Nat) (item : Addr → MdbItem) : Nat → (Addr → MdbItem)
  | 0 => item
  | i + 1 =>
    let item := initItems g index item i
    let a := (index, g.slabSize * i)
    Function.update item a
      { item a with
        next := 0
        prev := 0
        itemId := g.itemIdAt index i
        hNext := g.itemIdAt index (i + 1) }

/-- `init_page` -/
def initPage (g : SlabShape) (mem : Memory) (index : Nat) : Memory :=
  let item := fun a : Addr => if a.1 = index then MdbItem.zeroed else mem.item a
  let item := g.initItems index item g.perSlab
  let last := (index, g.slabSize * (g.perSlab - 1))
  { mem with
    page := Function.update mem.page index
      { id := index
        freeNr := g.perSlab
        next := 0
        prev := 0
        freeHead := g.itemIdAt index 0 }
    item := Function.update item last { item last with hNext := 0 } }

end SlabShape

/-- A slab manager; `this_item_list` is `itemHead` and `itemTail`. -/
structure SlabManager extends SlabShape where
  itemHead : Nat → ItemId
  itemTail : Nat → ItemId
  itemCount : Nat → UInt64
  fullPagesNo : Int
  partialPagesNo : Int
  freePagesNo : Int
  evictIndex : Nat
  freePages : Nat
  fullPages : Nat
  partialPages : Nat → Nat
  firstPartialPageIndex : Nat
  partialBucketCount : Int

/-- `alloc_type` -/
inductive AllocType where
  | new
  | expired
  | evictSelf
  | evictAny
deriving DecidableEq

/-! # Page lists -/

/-- Write the header of the page `p` unless `p` is `0`; `index_to_page` must accept it. -/
def Memory.setPageAt (mem : Memory) (p : Nat) (f : PageInfo → PageInfo) : Option Memory :=
  if p = 0 then some mem
  else if mem.pool.indexOk p then some (mem.setPage p f)
  else none

/-- `link_page`: the memory and the new head. -/
def linkPage (mem : Memory) (p pageHead : Nat) : Option (Memory × Nat) := do
  let mem := mem.setPage p fun info => { info with prev := 0, next := pageHead }
  let info := mem.page p
  let mem ← mem.setPageAt info.next fun next => { next with prev := info.id }
  some (mem, info.id)

/-- `unlink_page`: the memory and the new head. -/
def unlinkPage (mem : Memory) (p pageHead : Nat) : Option (Memory × Nat) := do
  let info := mem.page p
  let pageHead := if info.id = pageHead then info.next else pageHead
  let mem ← mem.setPageAt info.next fun next => { next with prev := info.prev }
  let mem ← mem.setPageAt info.prev fun prev => { prev with next := info.next }
  some (mem.setPage p fun info => { info with prev := 0, next := 0 }, pageHead)

/-- A slab manager with the memory it works on. -/
structure Slab where
  mem : Memory
  mng : SlabManager

namespace Slab

/-- `link_partial_page` -/
def linkPartialPage (s : Slab) (p : Nat) : Option Slab := do
  let bucket := (s.mem.page p).freeNr / PARTIAL_PAGE_BUCKET
  let count := s.mng.partialBucketCount + if s.mng.partialPages bucket = 0 then 1 else 0
  let (mem, head) ← linkPage s.mem p (s.mng.partialPages bucket)
  let partialPages := Function.update s.mng.partialPages bucket head
  let first := s.mng.firstPartialPageIndex
  some
    { mem
      mng :=
        { s.mng with
          partialPages
          partialBucketCount := count
          firstPartialPageIndex :=
            if bucket < first ∨ (first = 0 ∧ partialPages 0 = 0) then bucket else first } }

/-- The loop of `unlink_partial_page`: the first bucket with a page behind `bucket`. -/
def nextBucket (bucketNum : Nat) (partialPages : Nat → Nat) (bucket : Nat) : Option Nat :=
  (List.range' (bucket + 1) (bucketNum - (bucket + 1))).find? fun i => partialPages i ≠ 0

/-- `unlink_partial_page` -/
def unlinkPartialPage (s : Slab) (p : Nat) : Option Slab := do
  let bucket := (s.mem.page p).freeNr / PARTIAL_PAGE_BUCKET
  let (mem, head) ← unlinkPage s.mem p (s.mng.partialPages bucket)
  let partialPages := Function.update s.mng.partialPages bucket head
  let first := s.mng.firstPartialPageIndex
  let count := s.mng.partialBucketCount - if partialPages bucket = 0 then 1 else 0
  some
    { mem
      mng :=
        { s.mng with
          partialPages
          partialBucketCount := count
          firstPartialPageIndex :=
            if first = bucket ∧ partialPages bucket = 0 then
              if count = 0 then 0
              else (nextBucket s.mng.partialPagesBucketNum partialPages bucket).getD first
            else first } }

/-- `get_partial_page_id` -/
def getPartialPageId (mng : SlabManager) : Nat := mng.partialPages mng.firstPartialPageIndex

/-! # Lists of items -/

/-- `link_item` -/
def linkItem (s : Slab) (a : Addr) (area : Nat) : Option Slab :=
  let id := (s.mem.item a).itemId
  if id ≠ 0 ∧ area < TAIR_MAX_AREA_COUNT then
    let oldHead := s.mng.itemHead area
    let mem := s.mem.setItem a fun it => { it with next := oldHead, prev := 0 }
    let mem :=
      if oldHead = 0 then mem else mem.setItem oldHead.addr fun it => { it with prev := id }
    some
      { mem
        mng :=
          { s.mng with
            itemHead := Function.update s.mng.itemHead area id
            itemTail := Function.update s.mng.itemTail area
              (if s.mng.itemTail area = 0 then id else s.mng.itemTail area) } }
  else none

/-- `unlink_item` -/
def unlinkItem (s : Slab) (a : Addr) : Option Slab :=
  let it := s.mem.item a
  let area := it.area
  if it.itemId ≠ 0 ∧ area < TAIR_MAX_AREA_COUNT then
    let mem :=
      if it.prev = 0 then s.mem
      else s.mem.setItem it.prev.addr fun prev => { prev with next := it.next }
    let mem :=
      if it.next = 0 then mem
      else mem.setItem it.next.addr fun next => { next with prev := it.prev }
    some
      { mem
        mng :=
          { s.mng with
            itemHead := Function.update s.mng.itemHead area
              (if it.itemId.itemidEqual (s.mng.itemHead area) then it.next
               else s.mng.itemHead area)
            itemTail := Function.update s.mng.itemTail area
              (if it.itemId.itemidEqual (s.mng.itemTail area) then it.prev
               else s.mng.itemTail area) } }
  else none

/-- `update_item` -/
def updateItem (s : Slab) (a : Addr) (area : Nat) : Option Slab := do
  let s ← s.unlinkItem a
  s.linkItem a area

/-! # `alloc_new_item` -/

/-- The first part of `alloc_new_item`: a page with a free item, off its list, and the
item's id. -/
def takePage (s : Slab) : Option (Option (Nat × ItemId) × Slab) :=
  if 0 < s.mng.partialPagesNo then
    let p := getPartialPageId s.mng
    let info := s.mem.page p
    if s.mem.pool.indexOk p ∧ 0 < info.freeNr ∧ info.freeHead ≠ 0 ∧
        info.freeNr ≤ s.mng.perSlab then do
      let s ← s.unlinkPartialPage p
      some (some (p, info.freeHead), s)
    else none
  else if 0 < s.mng.freePagesNo then
    let p := s.mng.freePages
    let info := s.mem.page p
    if s.mem.pool.indexOk p ∧ info.freeNr = s.mng.perSlab ∧ info.freeHead ≠ 0 then do
      let (mem, head) ← unlinkPage s.mem p p
      some (some (p, info.freeHead),
        { mem
          mng :=
            { s.mng with
              freePages := head
              freePagesNo := s.mng.freePagesNo - 1
              partialPagesNo := s.mng.partialPagesNo + 1 } })
    else none
  else do
    let (page, pool) ← s.mem.pool.allocPage
    match page with
    | none => some (none, { s with mem := { s.mem with pool } })
    | some index =>
      let mem := s.mng.initPage { s.mem with pool } index
      some (some (index, (mem.page index).freeHead),
        { mem, mng := { s.mng with partialPagesNo := s.mng.partialPagesNo + 1 } })

/-- The second part: one free item less, and the page is filed again. -/
def chargePage (s : Slab) (p : Nat) : Option Slab := do
  let mem := s.mem.setPage p fun info => { info with freeNr := info.freeNr - 1 }
  if (mem.page p).freeNr = 0 then
    let (mem, head) ← linkPage mem p s.mng.fullPages
    some
      { mem := mem.setPage p fun info => { info with freeHead := 0 }
        mng :=
          { s.mng with
            fullPages := head
            fullPagesNo := s.mng.fullPagesNo + 1
            partialPagesNo := s.mng.partialPagesNo - 1 } }
  else linkPartialPage { s with mem } p

/-- `alloc_new_item`; no item is `NULL`. -/
def allocNewItem (s : Slab) (area : Nat) : Option (Option Addr × Slab) := do
  let (page, s) ← s.takePage
  match page with
  | none => some (none, s)
  | some (p, itemId) =>
    let s ← s.chargePage p
    if itemId = 0 then none
    else
      let a := itemId.addr
      let head := (s.mem.item a).hNext
      let s := { s with mem := s.mem.setPage p fun info => { info with freeHead := head } }
      let s ← s.linkItem a area
      let info := s.mem.page p
      if (s.mem.item a).itemId = itemId ∧ (info.freeNr = 0 ↔ info.freeHead = 0) then
        some (some a, s)
      else none

/-! # `free_item` -/

/-- The page of a freed item leaves its list. -/
def unfilePage (s : Slab) (p : Nat) : Option Slab :=
  let info := s.mem.page p
  if s.mem.pool.indexOk p then
    if info.freeNr = 0 then do
      let (mem, head) ← unlinkPage s.mem p s.mng.fullPages
      some
        { mem
          mng :=
            { s.mng with
              fullPages := head
              fullPagesNo := s.mng.fullPagesNo - 1
              partialPagesNo := s.mng.partialPagesNo + 1 } }
    else if info.freeHead = 0 then none
    else s.unlinkPartialPage p
  else none

/-- The freed item goes on the free list of its page. -/
def giveItem (mem : Memory) (a : Addr) (p : Nat) : Memory :=
  let mem := mem.setItem a fun it => { it with prev := 0, next := 0 }
  let mem := mem.setItem a fun it => { it with hNext := (mem.page p).freeHead }
  let id := (mem.item a).itemId
  mem.setPage p fun info => { info with freeHead := id, freeNr := info.freeNr + 1 }

/-- The page is filed again; one that is all free goes back to the pool, unless the
slab has at most one other. -/
def refilePage (s : Slab) (p : Nat) : Option Slab :=
  if (s.mem.page p).freeNr = s.mng.perSlab then
    let mng := { s.mng with partialPagesNo := s.mng.partialPagesNo - 1 }
    if mng.freePagesNo + mng.fullPagesNo + mng.partialPagesNo ≤ (1 : Int) then do
      let (mem, head) ← linkPage s.mem p mng.freePages
      some { mem, mng := { mng with freePages := head, freePagesNo := mng.freePagesNo + 1 } }
    else do
      let pool ← s.mem.pool.freePage (s.mem.page p).id
      some { mem := { s.mem with pool }, mng }
  else s.linkPartialPage p

/-- `free_item` -/
def freeItem (s : Slab) (a : Addr) : Option Slab :=
  if (s.mem.item a).itemId = 0 then none
  else do
    let s ← s.unlinkItem a
    let p := (s.mem.item a).itemId.pageId.toNat
    let s ← s.unfilePage p
    refilePage { s with mem := giveItem s.mem a p } p

/-! # Eviction -/

/-- The test of the eviction functions. -/
def stale (it : MdbItem) (crrntTime : UInt32) : Bool := 0 < it.exptime ∧ it.exptime < crrntTime

/-- The loop of `evict_self`: the first expired item among the last `times` of a
list. -/
def findExpired (mem : Memory) (crrntTime : UInt32) : Nat → ItemId → Option Addr
  | 0, _ => none
  | times + 1, pos =>
    if pos = 0 then none
    else if stale (mem.item pos.addr) crrntTime then some pos.addr
    else findExpired mem crrntTime times (mem.item pos.addr).prev

/-- `CLEAR_FLAGS(item->item_id)` -/
def clearItemFlags (s : Slab) (a : Addr) : Slab :=
  { s with mem := s.mem.setItem a fun it => { it with itemId := it.itemId.clearFlags } }

/-- `evict_self` -/
def evictSelf (s : Slab) (area : Nat) (crrntTime : UInt32) :
    Option (Option (Addr × AllocType) × Slab) :=
  let tail := s.mng.itemTail area
  if tail = 0 then some (none, s)
  else
    match findExpired s.mem crrntTime 50 tail with
    | some a => do
      let s := s.clearItemFlags a
      let s ← s.updateItem a (s.mem.item a).area
      some (some (a, .expired), s)
    | none =>
      let a := tail.addr
      if (s.mem.item a).area = area then do
        let s := s.clearItemFlags a
        let s ← s.updateItem a (s.mem.item a).area
        some (some (a, .evictSelf), s)
      else none

/-- The loop of `evict_any`: the next area that has an item. -/
def seekArea (mng : SlabManager) : Nat → Nat → Option Nat
  | 0, _ => none
  | times + 1, index =>
    if mng.itemTail index = 0 then
      seekArea mng times (if TAIR_MAX_AREA_COUNT ≤ index + 1 then 0 else index + 1)
    else some index

/-- `evict_any` -/
def evictAny (s : Slab) (area : Nat) (crrntTime : UInt32) :
    Option ((Addr × AllocType) × Slab) :=
  if area < TAIR_MAX_AREA_COUNT then do
    let start := if TAIR_MAX_AREA_COUNT ≤ s.mng.evictIndex then 0 else s.mng.evictIndex
    let index ← seekArea s.mng (TAIR_MAX_AREA_COUNT + 1) start
    let a := (s.mng.itemTail index).addr
    let type := if stale (s.mem.item a) crrntTime then .expired else AllocType.evictAny
    let s := clearItemFlags { s with mng := { s.mng with evictIndex := index } } a
    let s ← s.updateItem a area
    some ((a, type), s)
  else none

/-! # `alloc_item` -/

/-- At the label `ALLOC_NEW`. -/
def tryNew (s : Slab) (area : Nat) : Option (Option (Addr × AllocType) × Slab) := do
  let (item, s) ← s.allocNewItem area
  match item with
  | none => some (none, s)
  | some a =>
    let count := Function.update s.mng.itemCount area (s.mng.itemCount area + 1)
    some (some (a, .new), { s with mng := { s.mng with itemCount := count } })

/-- At the label `EVICT_ANY`. -/
def tryAny (s : Slab) (area : Nat) (crrntTime : UInt32) :
    Option (Option (Addr × AllocType) × Slab) := do
  let ((a, type), s) ← s.evictAny area crrntTime
  let old := (s.mem.item a).area
  let count := Function.update s.mng.itemCount old (s.mng.itemCount old - 1)
  let count := Function.update count area (count area + 1)
  some (some (a, type), { s with mng := { s.mng with itemCount := count } })

/-- Go on where nothing was found. -/
def orElse {β : Type} (r : Option (Option β × Slab)) (k : Slab → Option (Option β × Slab)) :
    Option (Option β × Slab) :=
  match r with
  | none => none
  | some (some x, s) => some (some x, s)
  | some (none, s) => k s

/-- `alloc_item`: `exceed` is what `is_quota_exceed` says of the area. -/
def allocItem (s : Slab) (area : Nat) (exceed : Bool) (crrntTime : UInt32) :
    Option (Option (Addr × AllocType) × Slab) :=
  if area < TAIR_MAX_AREA_COUNT then
    if exceed then
      orElse (s.evictSelf area crrntTime) fun s =>
        orElse (s.tryNew area) fun s => s.tryAny area crrntTime
    else
      orElse (s.tryNew area) fun s =>
        orElse (s.evictSelf area crrntTime) fun s => s.tryAny area crrntTime
  else none

/-! # Starting -/

/-- `pre_alloc`, for one page. -/
def preAlloc (s : Slab) : Option Slab := do
  let (page, pool) ← s.mem.pool.allocPage
  match page with
  | none => some { s with mem := { s.mem with pool } }
  | some index =>
    let mem := s.mng.initPage { s.mem with pool } index
    let (mem, head) ← linkPage mem index s.mng.freePages
    some
      { mem
        mng := { s.mng with freePages := head, freePagesNo := s.mng.freePagesNo + 1 } }

end Slab

/-- A slab manager before `pre_alloc`: the memory under it was zero. -/
def SlabManager.blank (g : SlabShape) : SlabManager where
  toSlabShape := g
  itemHead := fun _ => 0
  itemTail := fun _ => 0
  itemCount := fun _ => 0
  fullPagesNo := 0
  partialPagesNo := 0
  freePagesNo := 0
  evictIndex := 0
  freePages := 0
  fullPages := 0
  partialPages := fun _ => 0
  firstPartialPageIndex := 0
  partialBucketCount := 0

end Mdb
