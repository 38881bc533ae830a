-- SUMMARY: The free items of a page, and taking and giving back items of a slab.
import NetworkEtc.Mdb.Filing

/-!
# The stock of a page

`Stock` says which items of a page are free: those on its free list, of which there are
`free_nr`. Taking an item and giving one back are followed through the functions of the
slab manager, apart from the lists of items in use, which only touch `prev` and `next`.
-/

namespace Mdb

open Library

/-- Where the free list goes on. -/
def freeNext (mem : Memory) (x : ItemId) : Option ItemId := (mem.item x.addr).hNext.named

/-- The page `p` of a slab, with the free items `l`. -/
structure Stock (g : SlabShape) (mem : Memory) (p : Nat) (l : List ItemId) : Prop where
  indexOk : mem.pool.indexOk p = true
  used : mem.pool.pageBitmap p = true
  id_eq : (mem.page p).id = p
  freeNr_eq : (mem.page p).freeNr = l.length
  chain : Seg (freeNext mem) (mem.page p).freeHead.named l none
  nodup : l.Nodup
  place : ∀ x ∈ l, g.IsPlace p x
  free_id : ∀ x ∈ l, (mem.item x.addr).itemId = x
  item_id : ∀ x, g.IsPlace p x → (mem.item x.addr).itemId.clearFlags = x

/-- `mem'` differs from `mem` in the links of items in use only. -/
structure Memory.ItemsRelinked (mem mem' : Memory) : Prop where
  pool_eq : mem'.pool = mem.pool
  page_eq : mem'.page = mem.page
  item_eq : ∀ a, mem'.item a =
    { mem.item a with prev := (mem'.item a).prev, next := (mem'.item a).next }

namespace Memory.ItemsRelinked

variable {mem mem' mem'' : Memory}

theorem refl : mem.ItemsRelinked mem := ⟨rfl, rfl, fun _ => rfl⟩

theorem trans (h : mem.ItemsRelinked mem') (h' : mem'.ItemsRelinked mem'') :
    mem.ItemsRelinked mem'' := by
  refine ⟨h'.pool_eq.trans h.pool_eq, h'.page_eq.trans h.page_eq, fun a => ?_⟩
  conv_lhs => rw [h'.item_eq a, h.item_eq a]

theorem setItem {a : Addr} {f : MdbItem → MdbItem}
    (h : f (mem.item a) =
      { mem.item a with prev := (f (mem.item a)).prev, next := (f (mem.item a)).next }) :
    mem.ItemsRelinked (mem.setItem a f) := by
  refine ⟨rfl, rfl, fun b => ?_⟩
  rw [Memory.item_setItem]
  split
  · next heq =>
    rw [heq]
    exact h
  · rfl

variable (h : mem.ItemsRelinked mem') (a : Addr)
include h

theorem hNext_eq : (mem'.item a).hNext = (mem.item a).hNext := by rw [h.item_eq a]
theorem itemId_eq : (mem'.item a).itemId = (mem.item a).itemId := by rw [h.item_eq a]
theorem data_eq : (mem'.item a).data = (mem.item a).data := by rw [h.item_eq a]
theorem exptime_eq : (mem'.item a).exptime = (mem.item a).exptime := by rw [h.item_eq a]

theorem area_eq : (mem'.item a).area = (mem.item a).area := by
  unfold MdbItem.area
  rw [h.data_eq a]

end Memory.ItemsRelinked

namespace Stock

variable {g : SlabShape} {mem mem' : Memory} {p : Nat} {l : List ItemId} {x : ItemId}

theorem pos (h : Stock g mem p l) : 0 < p := (MemPool.indexOk_iff.mp h.indexOk).1

theorem lt (h : Stock g mem p l) : p < MAX_PAGES_NO :=
  Nat.lt_of_lt_of_le (MemPool.indexOk_iff.mp h.indexOk).2 mem.pool.totalPages_le

theorem length_le (h : Stock g mem p l) : l.length ≤ g.perSlab :=
  SlabShape.length_le_perSlab h.nodup h.place

theorem freeHead_cons (h : Stock g mem p (x :: l)) : (mem.page p).freeHead = x :=
  (ItemId.named_eq_some.mp h.chain.1).2

theorem freeHead_eq_zero (h : Stock g mem p l) :
    (mem.page p).freeHead = 0 ↔ (mem.page p).freeNr = 0 := by
  rw [← ItemId.named_eq_none, h.freeNr_eq, h.chain.start_none]
  simp

/-- Only what a page says of its free items matters. -/
theorem congr (h : Stock g mem p l) (htotal : mem'.pool.totalPages = mem.pool.totalPages)
    (hbit : mem'.pool.pageBitmap p = mem.pool.pageBitmap p)
    (hid : (mem'.page p).id = (mem.page p).id)
    (hnr : (mem'.page p).freeNr = (mem.page p).freeNr)
    (hhead : (mem'.page p).freeHead = (mem.page p).freeHead)
    (hnext : ∀ y ∈ l, (mem'.item y.addr).hNext = (mem.item y.addr).hNext)
    (hfree : ∀ y ∈ l, (mem'.item y.addr).itemId = (mem.item y.addr).itemId)
    (hitem : ∀ y, g.IsPlace p y →
      (mem'.item y.addr).itemId.clearFlags = (mem.item y.addr).itemId.clearFlags) :
    Stock g mem' p l := by
  refine ⟨?_, ?_, ?_, ?_, ?_, h.nodup, h.place, ?_, ?_⟩
  · have hok := h.indexOk
    rw [MemPool.indexOk_iff] at hok ⊢
    rwa [htotal]
  · rw [hbit, h.used]
  · rw [hid, h.id_eq]
  · rw [hnr, h.freeNr_eq]
  · rw [hhead]
    apply h.chain.congr
    intro y hy
    unfold freeNext
    rw [hnext y hy]
  · intro y hy
    rw [hfree y hy, h.free_id y hy]
  · intro y hy
    rw [hitem y hy, h.item_id y hy]

theorem relinked (h : Stock g mem p l) (hrel : mem.Relinked mem') : Stock g mem' p l := by
  apply h.congr <;> simp [hrel.pool_eq, hrel.item_eq, hrel.id_eq, hrel.freeNr_eq,
    hrel.freeHead_eq]

theorem itemsRelinked (h : Stock g mem p l) (hrel : mem.ItemsRelinked mem') :
    Stock g mem' p l := by
  apply h.congr <;> simp [hrel.pool_eq, hrel.page_eq, hrel.hNext_eq, hrel.itemId_eq]

/-- What happens on other pages does not matter. -/
theorem outside (h : Stock g mem p l) {S : Finset Nat} (hout : mem.Outside S mem') (hp : p ∉ S)
    (htotal : mem'.pool.totalPages = mem.pool.totalPages)
    (hbit : mem'.pool.pageBitmap p = mem.pool.pageBitmap p) : Stock g mem' p l := by
  have hitem : ∀ y, g.IsPlace p y → mem'.item y.addr = mem.item y.addr := by
    intro y hy
    apply hout.item_eq
    rwa [hy.addr_fst h.lt]
  refine h.congr htotal hbit (by rw [hout.page_eq p hp]) (by rw [hout.page_eq p hp])
    (by rw [hout.page_eq p hp]) (fun y hy => ?_) (fun y hy => ?_) (fun y hy => ?_)
  · rw [hitem y (h.place y hy)]
  · rw [hitem y (h.place y hy)]
  · rw [hitem y hy]

/-- A new page: every place is free. -/
theorem initPage (hok : mem.pool.indexOk p = true) (hused : mem.pool.pageBitmap p = true) :
    Stock g (g.initPage mem p) p (g.places p) := by
  have hp : p < MAX_PAGES_NO :=
    Nat.lt_of_lt_of_le (MemPool.indexOk_iff.mp hok).2 mem.pool.totalPages_le
  have hid : ∀ x, g.IsPlace p x → ((g.initPage mem p).item x.addr).itemId = x := by
    rintro x ⟨i, hi, rfl⟩
    rw [SlabShape.addr_itemIdAt hp hi.le, SlabShape.item_initPage hi]
  refine ⟨hok, hused, by simp, by simp, ?_, SlabShape.nodup_places,
    fun x => SlabShape.mem_places.mp, fun x hx => hid x (SlabShape.mem_places.mp hx), ?_⟩
  · rw [SlabShape.page_initPage_self]
    exact SlabShape.seg_places hp
  · intro x hx
    rw [hid x hx, hx.clearFlags]

/-- The first free item is taken. -/
theorem pop (h : Stock g mem p (x :: l)) (hpool : mem'.pool = mem.pool)
    (hitem : mem'.item = mem.item) (hid : (mem'.page p).id = (mem.page p).id)
    (hnr : (mem'.page p).freeNr = (mem.page p).freeNr - 1)
    (hhead : (mem'.page p).freeHead = (mem.item x.addr).hNext) : Stock g mem' p l := by
  refine ⟨by rw [hpool]; exact h.indexOk, by rw [hpool]; exact h.used, by rw [hid, h.id_eq], ?_,
    ?_, (List.nodup_cons.mp h.nodup).2, fun y hy => h.place y (List.mem_cons_of_mem x hy),
    fun y hy => ?_, fun y hy => ?_⟩
  · rw [hnr, h.freeNr_eq, List.length_cons, Nat.add_sub_cancel]
  · rw [hhead]
    apply h.chain.2.congr
    intro y _
    unfold freeNext
    rw [hitem]
  · rw [hitem]
    exact h.free_id y (List.mem_cons_of_mem x hy)
  · rw [hitem]
    exact h.item_id y hy

/-- An item is given back. -/
theorem giveItem (h : Stock g mem p l) (hx : g.IsPlace p x) (hxl : x ∉ l)
    (hid : (mem.item x.addr).itemId = x) :
    Stock g (Slab.giveItem mem x.addr p) p (x :: l) := by
  have hother : ∀ y, g.IsPlace p y → y ≠ x → y.addr ≠ x.addr :=
    fun y hy hne heq => hne (hy.eq_of_addr hx h.lt h.lt heq)
  have hgive : Slab.giveItem mem x.addr p =
      (mem.setItem x.addr fun it =>
        { it with prev := 0, next := 0, hNext := (mem.page p).freeHead }).setPage p
        fun info => { info with freeHead := x, freeNr := info.freeNr + 1 } := by
    simp [Slab.giveItem, Memory.setItem, Memory.setPage, hid]
  rw [hgive]
  refine ⟨h.indexOk, h.used, by simp [h.id_eq], by simp [h.freeNr_eq], ?_,
    List.nodup_cons.mpr ⟨hxl, h.nodup⟩, ?_, ?_, ?_⟩
  · simp only [Memory.page_setPage_self, Memory.page_setItem]
    rw [hx.named]
    refine ⟨rfl, ?_⟩
    simp only [freeNext, Memory.item_setPage, Memory.item_setItem_self]
    apply h.chain.congr
    intro y hy
    have hne : y ≠ x := by rintro rfl; exact hxl hy
    simp only [freeNext, Memory.item_setPage]
    rw [Memory.item_setItem_ne (hother y (h.place y hy) hne)]
  · intro y hy
    rcases List.mem_cons.mp hy with rfl | hy
    · exact hx
    · exact h.place y hy
  · intro y hy
    rw [Memory.item_setPage]
    rcases List.mem_cons.mp hy with rfl | hyl
    · simp [hid]
    · have hne : y ≠ x := by rintro rfl; exact hxl hyl
      rw [Memory.item_setItem_ne (hother y (h.place y hyl) hne), h.free_id y hyl]
  · intro y hy
    rw [Memory.item_setPage]
    rcases eq_or_ne y x with rfl | hne
    · simp [hid, hx.clearFlags]
    · rw [Memory.item_setItem_ne (hother y hy hne), h.item_id y hy]

end Stock

end Mdb
