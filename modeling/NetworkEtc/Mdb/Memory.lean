-- SUMMARY: The shared memory of the store: item ids, items, page headers, the page pool.
import Mathlib.Algebra.Group.Nat.Defs
import Mathlib.Data.Finset.Card
import Mathlib.Data.Finset.Range
import Mathlib.Logic.Function.Basic

/-!
# Memory

A page is `pageSize` bytes: a header, then items of one size. An item is named by a
64-bit id, whose bit fields say where it lies, and which is `0` where the source has no
item; an item lies at `(page, bytes behind the header)`. Addresses are kept apart by
their first byte: whoever writes an item sees to it that it fits in its place.
-/

namespace Mdb

def pageSize : Nat := 2 ^ 20
/-- `sizeof(page_info)` -/
def pageInfoSize : Nat := 24
/-- `sizeof(mdb_item)` -/
def itemHeaderSize : Nat := 46
def TAIR_MAX_AREA_COUNT : Nat := 100
def TAIR_SLAB_LARGEST : Nat := 100
/-- `sizeof(slab_manager)`: an item list and two counts for each area, three pointers, two totals,
thirteen fields of four bytes, and four bytes more for the alignment. -/
def slabManagerSize : Nat := TAIR_MAX_AREA_COUNT * (16 + 8 + 8) + 3 * 8 + 2 * 8 + 13 * 4 + 4
def MEMCACHE_META_LEN : Nat := slabManagerSize * TAIR_SLAB_LARGEST
def MAX_PAGES_NO : Nat := 65536

/-- The bytes of a page that hold items. -/
def pageArea : Nat := pageSize - pageInfoSize

abbrev Addr := Nat × Nat

/-! # Item ids -/

/-- An `item_id`, by its bit fields from the lowest: `0~19 slab_size`,
`20~35 offset in page`, `36~51 page_id`, `52~59 slab_id`, `60~63 flags`. -/
@[ext] structure ItemId where
  slabSize : BitVec 20
  offset : BitVec 16
  pageId : BitVec 16
  slabId : BitVec 8
  flags : BitVec 4
deriving DecidableEq

namespace ItemId

instance : Zero ItemId := ⟨⟨0, 0, 0, 0, 0⟩⟩

/-- `ITEM_ID` -/
def make (slabSize offset pageId slabId : Nat) : ItemId :=
  ⟨.ofNat 20 slabSize, .ofNat 16 offset, .ofNat 16 pageId, .ofNat 8 slabId, 0⟩

/-- `CLEAR_FLAGS` -/
def clearFlags (id : ItemId) : ItemId := { id with flags := 0 }

/-- `SET_ITEM_FLAGS` -/
def setItemFlags (id : ItemId) (v : BitVec 8) : ItemId :=
  { id with flags := id.flags ||| v.setWidth 4 }

/-- `ITEM_FLAGS` -/
def itemFlags (id : ItemId) : BitVec 8 := id.flags.setWidth 8

/-- `itemid_equal` -/
def itemidEqual (lhs rhs : ItemId) : Bool := lhs.clearFlags = rhs.clearFlags

/-- `ITEM_ADDR`, from the start of the pool. -/
def addr (id : ItemId) : Addr := (id.pageId.toNat, id.slabSize.toNat * id.offset.toNat)

/-- The place an id names, whatever its flags. -/
def place (id : ItemId) : Option ItemId := if id = 0 then none else some id.clearFlags

@[simp] theorem clearFlags_clearFlags (id : ItemId) : id.clearFlags.clearFlags = id.clearFlags :=
  rfl
@[simp] theorem addr_clearFlags (id : ItemId) : id.clearFlags.addr = id.addr := rfl
@[simp] theorem clearFlags_setItemFlags (id : ItemId) (v : BitVec 8) :
    (id.setItemFlags v).clearFlags = id.clearFlags := rfl
@[simp] theorem clearFlags_make (size offset page slab : Nat) :
    (make size offset page slab).clearFlags = make size offset page slab := rfl
@[simp] theorem place_zero : place 0 = none := rfl

theorem itemidEqual_iff {lhs rhs : ItemId} :
    itemidEqual lhs rhs = true ↔ lhs.clearFlags = rhs.clearFlags := by
  simp [itemidEqual]

theorem place_eq_none {id : ItemId} : id.place = none ↔ id = 0 := by
  unfold place
  split <;> simp_all

theorem place_eq_some {id x : ItemId} : id.place = some x ↔ id ≠ 0 ∧ id.clearFlags = x := by
  unfold place
  split <;> simp_all

theorem ne_zero_of_clearFlags {id : ItemId} (h : id.clearFlags ≠ 0) : id ≠ 0 := by
  rintro rfl
  exact h rfl

end ItemId

/-! # Items and page headers -/

/-- An item: its header, then key and value. Of the bytes that follow the header those
are kept that were written last. -/
structure MdbItem where
  hNext : ItemId
  prev : ItemId
  next : ItemId
  exptime : UInt32
  keyLen : BitVec 12
  dataLen : BitVec 20
  version : UInt16
  updateTime : UInt32
  itemId : ItemId
  data : List UInt8

namespace MdbItem

/-- What `memset` leaves. -/
def zeroed : MdbItem := ⟨0, 0, 0, 0, 0, 0, 0, 0, 0, []⟩

/-- `ITEM_KEY`, as far as `key_len` goes. -/
def key (it : MdbItem) : List UInt8 := it.data.take it.keyLen.toNat

/-- `ITEM_DATA`, as far as `data_len` goes. -/
def value (it : MdbItem) : List UInt8 := (it.data.drop it.keyLen.toNat).take it.dataLen.toNat

end MdbItem

/-- `KEY_AREA`: the first two bytes, the lower first. -/
def keyArea (key : List UInt8) : Nat := (key.getD 0 0).toNat + 256 * (key.getD 1 0).toNat

/-- `ITEM_AREA` -/
def MdbItem.area (it : MdbItem) : Nat := keyArea it.data

@[ext] structure PageInfo where
  id : Nat
  freeNr : Nat
  next : Nat
  prev : Nat
  freeHead : ItemId

/-! # The page pool -/

/-- `mem_pool_impl`, with the bitmap as a predicate on page numbers. The bitmap has
room for `MAX_PAGES_NO` pages. -/
structure MemPool where
  totalPages : Nat
  freePages : Nat
  currentPage : Nat
  pageBitmap : Nat → Bool
  totalPages_le : totalPages ≤ MAX_PAGES_NO

namespace MemPool

/-- The loop of `alloc_page`: the first free page from `currentPage` on, round and
round. -/
def scan (pool : MemPool) : Nat → Nat → Option Nat
  | 0, _ => none
  | fuel + 1, currentPage =>
    let currentPage := if currentPage = pool.totalPages then 0 else currentPage
    if pool.pageBitmap currentPage then scan pool fuel (currentPage + 1) else some currentPage

/-- The assertion of `index_to_page`. -/
def indexOk (pool : MemPool) (index : Nat) : Bool := 0 < index ∧ index < pool.totalPages

/-- `alloc_page`; no page is `NULL`. -/
def allocPage (pool : MemPool) : Option (Option Nat × MemPool) :=
  if pool.freePages = 0 then some (none, pool)
  else
    match pool.scan (pool.totalPages + 1) pool.currentPage with
    | none => none
    | some index =>
      if pool.indexOk index then
        some (some index,
          { pool with
            currentPage := index + 1
            freePages := pool.freePages - 1
            pageBitmap := Function.update pool.pageBitmap index true })
      else none

/-- `free_page(index)` -/
def freePage (pool : MemPool) (index : Nat) : Option MemPool :=
  if pool.indexOk index then
    if pool.pageBitmap index then
      some
        { pool with
          freePages := pool.freePages + 1
          pageBitmap := Function.update pool.pageBitmap index false }
    else some pool
  else none

/-- The pages that are free. -/
def clear (pool : MemPool) : Finset Nat :=
  (Finset.range pool.totalPages).filter fun p => pool.pageBitmap p = false

/-- The books of the pool agree with the bitmap, and page `0` is the meta data's. -/
structure Sound (pool : MemPool) : Prop where
  freePages_eq : pool.freePages = pool.clear.card
  currentPage_le : pool.currentPage ≤ pool.totalPages
  meta_set : pool.pageBitmap 0 = true

variable {pool : MemPool} {p : Nat}

theorem indexOk_iff : pool.indexOk p = true ↔ 0 < p ∧ p < pool.totalPages := by
  simp [indexOk]

/-- The loop meets a free page, if there is one, before it has gone round. -/
theorem scan_spec {n : Nat} (hclear : pool.pageBitmap n = false) (hn : n < pool.totalPages)
    {fuel cur : Nat} (hcur : cur ≤ pool.totalPages)
    (hfuel : (if cur ≤ n then n - cur else pool.totalPages - cur + n) < fuel) :
    ∃ m, pool.scan fuel cur = some m ∧ pool.pageBitmap m = false ∧ m < pool.totalPages := by
  induction fuel generalizing cur with
  | zero => exact absurd hfuel (Nat.not_lt_zero _)
  | succ fuel ih =>
    unfold scan
    simp only
    have hwrap : (if cur = pool.totalPages then 0 else cur) < pool.totalPages := by
      split <;> omega
    have hround : ∀ c, c = (if cur = pool.totalPages then 0 else cur) →
        (if c ≤ n then n - c else pool.totalPages - c + n) < fuel + 1 := by
      rintro c rfl
      split at hfuel <;> split <;> split_ifs at * <;> omega
    generalize hc : (if cur = pool.totalPages then 0 else cur) = c at hwrap
    have hfuel' := hround c hc.symm
    cases hbit : pool.pageBitmap c with
    | false =>
      rw [if_neg (by simp)]
      exact ⟨c, rfl, hbit, hwrap⟩
    | true =>
      rw [if_pos rfl]
      apply ih hwrap
      have hne : c ≠ n := by
        rintro rfl
        rw [hbit] at hclear
        exact Bool.noConfusion hclear
      split at hfuel' <;> split <;> omega

theorem mem_clear : p ∈ pool.clear ↔ p < pool.totalPages ∧ pool.pageBitmap p = false := by
  simp [clear]

/-- What `alloc_page` does: nothing when no page is free, and else it takes a free one. -/
theorem Sound.allocPage (h : pool.Sound) :
    (pool.allocPage = some (none, pool) ∧ pool.freePages = 0) ∨
    ∃ index pool', pool.allocPage = some (some index, pool') ∧ pool'.Sound ∧
      pool'.totalPages = pool.totalPages ∧ 0 < index ∧ index < pool.totalPages ∧
      pool.pageBitmap index = false ∧
      pool'.pageBitmap = Function.update pool.pageBitmap index true := by
  unfold MemPool.allocPage
  rcases Nat.eq_zero_or_pos pool.freePages with hfree | hfree
  · exact Or.inl ⟨if_pos hfree, hfree⟩
  · right
    rw [if_neg hfree.ne']
    obtain ⟨n, hn⟩ : pool.clear.Nonempty := by
      rw [← Finset.card_pos, ← h.freePages_eq]
      exact hfree
    obtain ⟨hn_lt, hn_clear⟩ := mem_clear.mp hn
    have hfuel : ∀ n, n < pool.totalPages → (if pool.currentPage ≤ n then n - pool.currentPage
        else pool.totalPages - pool.currentPage + n) < pool.totalPages + 1 := by
      intro n hn
      have hcurrent := h.currentPage_le
      split <;> omega
    obtain ⟨m, hscan, hm_clear, hm_lt⟩ :=
      scan_spec hn_clear hn_lt h.currentPage_le (hfuel n hn_lt)
    have hm_pos : 0 < m := by
      rcases Nat.eq_zero_or_pos m with rfl | hpos
      · rw [h.meta_set] at hm_clear
        exact Bool.noConfusion hm_clear
      · exact hpos
    simp only [hscan]
    rw [if_pos (indexOk_iff.mpr ⟨hm_pos, hm_lt⟩)]
    refine ⟨m, _, rfl, ?_, rfl, hm_pos, hm_lt, hm_clear, rfl⟩
    refine ⟨?_, hm_lt, ?_⟩
    · have herase : clear { pool with
          currentPage := m + 1
          freePages := pool.freePages - 1
          pageBitmap := Function.update pool.pageBitmap m true } = pool.clear.erase m := by
        apply Finset.ext
        intro q
        rw [mem_clear, Finset.mem_erase, mem_clear]
        rcases eq_or_ne q m with rfl | hq
        · simp
        · simp [hq]
      rw [herase, Finset.card_erase_of_mem (mem_clear.mpr ⟨hm_lt, hm_clear⟩), ← h.freePages_eq]
    · simp only
      rw [Function.update_of_ne hm_pos.ne, h.meta_set]

/-- A page more is free. -/
theorem Sound.card_give {pool' : MemPool} (h : pool.Sound)
    (htotal : pool'.totalPages = pool.totalPages)
    (hbitmap : pool'.pageBitmap = Function.update pool.pageBitmap p false)
    (hp : p < pool.totalPages) (hset : pool.pageBitmap p = true) :
    pool'.clear.card = pool.freePages + 1 := by
  have hinsert : pool'.clear = insert p pool.clear := by
    apply Finset.ext
    intro q
    rw [mem_clear, Finset.mem_insert, mem_clear, htotal, hbitmap]
    rcases eq_or_ne q p with rfl | hq
    · simp [hp]
    · simp [hq]
  rw [hinsert, Finset.card_insert_of_notMem, ← h.freePages_eq]
  rw [mem_clear]
  rintro ⟨-, hclear⟩
  rw [hset] at hclear
  exact Bool.noConfusion hclear

/-- What `free_page` does to a page in use. -/
theorem Sound.freePage (h : pool.Sound) (hpos : 0 < p) (hp : p < pool.totalPages)
    (hset : pool.pageBitmap p = true) :
    ∃ pool', pool.freePage p = some pool' ∧ pool'.Sound ∧
      pool'.totalPages = pool.totalPages ∧
      pool'.pageBitmap = Function.update pool.pageBitmap p false := by
  unfold MemPool.freePage
  rw [if_pos (indexOk_iff.mpr ⟨hpos, hp⟩), if_pos hset]
  refine ⟨_, rfl, ⟨?_, h.currentPage_le, ?_⟩, rfl, rfl⟩
  · symm
    apply h.card_give _ _ hp hset <;> rfl
  · simp only
    rw [Function.update_of_ne hpos.ne, h.meta_set]

end MemPool

/-! # Memory -/

structure Memory where
  pool : MemPool
  page : Nat → PageInfo
  item : Addr → MdbItem

namespace Memory

def setPage (mem : Memory) (p : Nat) (f : PageInfo → PageInfo) : Memory :=
  { mem with page := Function.update mem.page p (f (mem.page p)) }

def setItem (mem : Memory) (a : Addr) (f : MdbItem → MdbItem) : Memory :=
  { mem with item := Function.update mem.item a (f (mem.item a)) }

variable {mem mem' mem'' : Memory} {p q : Nat} {a b : Addr} {f : PageInfo → PageInfo}
  {g : MdbItem → MdbItem}

@[simp] theorem pool_setPage : (mem.setPage p f).pool = mem.pool := rfl
@[simp] theorem item_setPage : (mem.setPage p f).item = mem.item := rfl
@[simp] theorem pool_setItem : (mem.setItem a g).pool = mem.pool := rfl
@[simp] theorem page_setItem : (mem.setItem a g).page = mem.page := rfl

theorem page_setPage :
    (mem.setPage p f).page q = if q = p then f (mem.page p) else mem.page q := by
  simp [setPage, Function.update_apply]

theorem item_setItem :
    (mem.setItem a g).item b = if b = a then g (mem.item a) else mem.item b := by
  simp [setItem, Function.update_apply]

@[simp] theorem page_setPage_self : (mem.setPage p f).page p = f (mem.page p) := by
  simp [page_setPage]

@[simp] theorem item_setItem_self : (mem.setItem a g).item a = g (mem.item a) := by
  simp [item_setItem]

theorem page_setPage_ne (h : q ≠ p) : (mem.setPage p f).page q = mem.page q := by
  simp [page_setPage, h]

theorem item_setItem_ne (h : b ≠ a) : (mem.setItem a g).item b = mem.item b := by
  simp [item_setItem, h]

/-- `mem'` is `mem` outside the pages of `S`. -/
structure Outside (S : Finset Nat) (mem mem' : Memory) : Prop where
  page_eq : ∀ p ∉ S, mem'.page p = mem.page p
  item_eq : ∀ a : Addr, a.1 ∉ S → mem'.item a = mem.item a

theorem Outside.refl {S : Finset Nat} : Outside S mem mem := ⟨fun _ _ => rfl, fun _ _ => rfl⟩

theorem Outside.trans {S : Finset Nat} (h : Outside S mem mem') (h' : Outside S mem' mem'') :
    Outside S mem mem'' :=
  ⟨fun p hp => (h'.page_eq p hp).trans (h.page_eq p hp),
    fun a ha => (h'.item_eq a ha).trans (h.item_eq a ha)⟩

theorem Outside.mono {S T : Finset Nat} (h : Outside S mem mem') (hsub : S ⊆ T) :
    Outside T mem mem' :=
  ⟨fun p hp => h.page_eq p fun hS => hp (hsub hS),
    fun a ha => h.item_eq a fun hS => ha (hsub hS)⟩

theorem outside_setPage {S : Finset Nat} (hp : p ∈ S) : Outside S mem (mem.setPage p f) :=
  ⟨fun q hq => page_setPage_ne (by rintro rfl; exact hq hp), fun _ _ => rfl⟩

theorem outside_setItem {S : Finset Nat} (ha : a.1 ∈ S) : Outside S mem (mem.setItem a g) :=
  ⟨fun _ _ => rfl, fun b hb => item_setItem_ne (by rintro rfl; exact hb ha)⟩

end Memory

end Mdb
