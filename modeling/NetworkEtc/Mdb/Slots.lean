-- SUMMARY: What the slab managers do to a store that is kept: writing, relinking, taking and giving back items.
import NetworkEtc.Mdb.Chains
import NetworkEtc.Mdb.Expiry

/-!
# Slots

The functions of the slab managers, seen from the store: one slab works on its own pages
and lists, and the other slabs and the hash table stay as they are.
-/

namespace Mdb

open Library

theorem Memory.ItemsRelinked.body_eq {mem mem' : Memory} (h : mem.ItemsRelinked mem') (a : Addr) :
    (mem'.item a).body = (mem.item a).body := by
  rw [h.item_eq a]
  rfl

namespace Books

variable {s : Slab} {owned : Finset Nat} {free free' : Nat → List ItemId} {mem' : Memory}
  {S : Finset Nat}

/-- What happens to other pages does not matter. -/
theorem outside (h : Books s owned free) (hout : s.mem.Outside S mem') (hpool : mem'.pool.Sound)
    (htotal : mem'.pool.totalPages = s.mem.pool.totalPages)
    (hS : ∀ q ∈ owned, q ∉ S ∧ free' q = free q ∧
      mem'.pool.pageBitmap q = s.mem.pool.pageBitmap q) : Books ⟨mem', s.mng⟩ owned free' := by
  refine ⟨hpool, fun q hq => ?_, ?_⟩
  · obtain ⟨hqS, hfree, hbit⟩ := hS q hq
    rw [hfree]
    exact (h.stock q hq).outside hout hqS htotal hbit
  · apply h.filed.congr
    intro q hq
    exact .of_eq (hout.page_eq q (hS q hq).1)

end Books

namespace Store

variable {s s' : Store} {g : Ledger} {live live' : ItemId → Prop} {i j k : Nat} {x y : ItemId}
  {sl : Slab}

theorem slab_setSlab_self : (s.setSlab i sl).slab i = sl := by
  simp [slab, setSlab]

theorem slab_setSlab_ne (h : j ≠ i) : (s.setSlab i sl).slab j = ⟨sl.mem, s.slabs j⟩ := by
  simp [slab, setSlab, h]

theorem slabs_setSlab_ne (h : j ≠ i) : (s.setSlab i sl).slabs j = s.slabs j := by
  simp [setSlab, h]

@[simp] theorem setSlab_setSlab {sl' : Slab} : (s.setSlab i sl).setSlab i sl' = s.setSlab i sl' := by
  simp [setSlab]

@[simp] theorem slabs_setSlab_self : (s.setSlab i sl).slabs i = sl.mng := by simp [setSlab]
@[simp] theorem mem_setSlab : (s.setSlab i sl).mem = sl.mem := rfl

theorem samePages_setSlab (h : (s.slabs i).SamePages sl.mng) (j : Nat) :
    (s.slabs j).SamePages ((s.setSlab i sl).slabs j) := by
  rcases eq_or_ne j i with rfl | hj
  · rw [slabs_setSlab_self]
    exact h
  · rw [slabs_setSlab_ne hj]
    exact .refl

/-- A slab that has changed its pages, the others having kept theirs. -/
theorem Paged.exchange (h : s.Paged g) (hi : i < g.count) {owned' : Finset Nat}
    {free' : Nat → List ItemId} (hbooks : Books sl owned' free')
    (hshape : sl.mng.toSlabShape = (s.slabs i).toSlabShape) {S : Finset Nat}
    (hout : s.mem.Outside S sl.mem)
    (htotal : sl.mem.pool.totalPages = s.mem.pool.totalPages)
    (hS : ∀ j < g.count, j ≠ i → ∀ q ∈ g.owned j, q ∉ S ∧ q ∉ owned' ∧ free' q = g.free q ∧
      sl.mem.pool.pageBitmap q = s.mem.pool.pageBitmap q) :
    (s.setSlab i sl).Paged (g.repage i owned' free') := by
  have hside : ∀ m < g.count, m ≠ i → Disjoint owned' (g.owned m) := by
    intro m hm hmi
    rw [Finset.disjoint_right]
    exact fun q hq => (hS m hm hmi q hq).2.1
  refine ⟨h.count_eq, fun j hj => ?_, h.slabId_eq, fun j hj => ?_, fun j hj l hl hjl => ?_⟩
  · rcases eq_or_ne j i with rfl | hji
    · rw [slabs_setSlab_self, hshape]
      exact h.shape_eq j hj
    · rw [slabs_setSlab_ne hji]
      exact h.shape_eq j hj
  · rcases eq_or_ne j i with rfl | hji
    · rw [slab_setSlab_self, Ledger.owned_repage_self]
      exact hbooks
    · rw [slab_setSlab_ne hji, Ledger.owned_repage_ne hji]
      apply (h.books j hj).outside hout hbooks.pool htotal
      intro q hq
      obtain ⟨hqS, -, hfree, hbit⟩ := hS j hj hji q hq
      exact ⟨hqS, hfree, hbit⟩
  · rcases eq_or_ne j i with rfl | hji
    · rw [Ledger.owned_repage_self, Ledger.owned_repage_ne hjl.symm]
      exact hside l hl hjl.symm
    · rw [Ledger.owned_repage_ne hji]
      rcases eq_or_ne l i with rfl | hli
      · rw [Ledger.owned_repage_self]
        exact (hside j hj hji).symm
      · rw [Ledger.owned_repage_ne hli]
        exact h.apart j hj l hl hjl

theorem Paged.move (h : s.Paged g) (x : ItemId) (k : Nat) : s.Paged (g.move x k) :=
  ⟨h.count_eq, h.shape_eq, h.slabId_eq, h.books, h.apart⟩

/-- Items of different slabs are different. -/
theorem Paged.notMem_slab (h : s.Paged g) (hi : i < g.count) (hj : j < g.count) (hji : j ≠ i)
    (hy : g.InSlab j y) : ¬ g.InSlab i y := by
  intro hyi
  rw [← h.slab_eq hj hy, ← h.slab_eq hi hyi] at hji
  exact hji rfl

/-- An item in use may be written, but for its links and its place; one in the table keeps
its key. -/
theorem Kept.write (h : s.Kept g live) (hx : g.InUse x) {f : MdbItem → MdbItem}
    (hlinks : ∀ it, (f it).hNext = it.hNext ∧ (f it).prev = it.prev ∧ (f it).next = it.next)
    (hplace : (f (s.mem.item x.addr)).itemId.clearFlags = (s.mem.item x.addr).itemId.clearFlags)
    (hlive : live x → (f (s.mem.item x.addr)).key = s.keyOf x ∧
      (f (s.mem.item x.addr)).Whole x.slabSize.toNat) : (s.setItem x.addr f).Kept g live := by
  have hitem : ∀ y, live y → y ≠ x → (s.setItem x.addr f).mem.item y.addr = s.mem.item y.addr := by
    intro y hy hyx
    apply Memory.item_setItem_ne
    exact fun heq => hyx (h.placed.apart y x (h.inUse y hy) hx heq)
  have hkey : ∀ y, live y → (s.setItem x.addr f).keyOf y = s.keyOf y := by
    intro y hy
    unfold keyOf
    rcases eq_or_ne y x with rfl | hyx
    · rw [mem_setItem, Memory.item_setItem_self]
      exact (hlive hy).1
    · rw [hitem y hy hyx]
  have hlink : ∀ a, ((s.setItem x.addr f).mem.item a).hNext = (s.mem.item a).hNext ∧
      ((s.setItem x.addr f).mem.item a).prev = (s.mem.item a).prev ∧
      ((s.setItem x.addr f).mem.item a).next = (s.mem.item a).next := by
    intro a
    rw [mem_setItem, Memory.item_setItem]
    split
    · next heq =>
      rw [heq]
      exact hlinks _
    · exact ⟨rfl, rfl, rfl⟩
  refine ⟨h.within (Memory.Within.setItem hx hplace) (fun _ => .refl) rfl, fun i hi => ?_,
    h.area_lt, ?_, h.inUse, fun y hy => ?_, fun y z hy hz heq => ?_,
    h.unlinked.congr (fun a _ => (hlink a).2.1) fun a _ => (hlink a).2.2⟩
  · apply (h.listed i hi).congr
    · exact fun y _ => (hlink y.addr).2.2
    · exact fun y _ => (hlink y.addr).2.1
    · exact fun _ _ => rfl
    · rfl
    · rfl
    · exact fun _ => Iff.rfl
  · apply h.chained.congr
    · intro y _
      unfold chainNext
      rw [(hlink y.addr).1]
    · intro y hy
      rw [hkey y hy]
      rfl
    · exact fun _ => rfl
    · exact fun _ => Iff.rfl
  · rcases eq_or_ne y x with rfl | hyx
    · rw [mem_setItem, Memory.item_setItem_self]
      exact (hlive hy).2
    · rw [hitem y hy hyx]
      exact h.whole y hy
  · rw [hkey y hy, hkey z hz] at heq
    exact h.keys y z hy hz heq

/-- The slab `i` has put `x` into the list of the area `k`. -/
theorem Kept.relisted (h : s.Kept g live) (hi : i < g.count) (hx : g.InSlab i x)
    (hk : k < TAIR_MAX_AREA_COUNT) (hrel : s.mem.ItemsRelinked sl.mem)
    (hsame : (s.slabs i).SamePages sl.mng)
    (hitem : ∀ y, g.InUse y → ¬ g.InSlab i y → sl.mem.item y.addr = s.mem.item y.addr)
    (hbeside : ∀ a, (∀ y, g.InUse y → a ≠ y.addr) → sl.mem.item a = s.mem.item a)
    (hlisted : Listed sl (Function.update g.area x k) (g.InSlab i)) :
    (s.setSlab i sl).Kept (g.move x k) live := by
  have hkey : ∀ y, (s.setSlab i sl).keyOf y = s.keyOf y :=
    fun y => MdbItem.key_congr (hrel.body_eq y.addr)
  have hpaged : (s.setSlab i sl).Paged g :=
    h.within (.of_relinked hrel hbeside) (samePages_setSlab hsame) rfl
  refine ⟨hpaged.move x k, fun j hj => ?_, fun y hy => ?_, ?_, h.inUse, fun y hy => ?_,
    fun y z hy hz heq => ?_,
    h.unlinked.congr (fun a ha => congrArg MdbItem.prev (hbeside a ha))
      fun a ha => congrArg MdbItem.next (hbeside a ha)⟩
  · rcases eq_or_ne j i with rfl | hji
    · rw [slab_setSlab_self]
      exact hlisted
    · rw [slab_setSlab_ne hji]
      have hout : ∀ y, g.InSlab j y → ¬ g.InSlab i y := fun y hy => h.notMem_slab hi hj hji hy
      have hsame' : ∀ y, g.InSlab j y → sl.mem.item y.addr = s.mem.item y.addr :=
        fun y hy => hitem y (Ledger.inUse_of hj hy) (hout y hy)
      apply (h.listed j hj).congr
      · exact fun y hy => congrArg MdbItem.next (hsame' y hy)
      · exact fun y hy => congrArg MdbItem.prev (hsame' y hy)
      · intro y hy
        apply Function.update_of_ne
        rintro rfl
        exact hout y hy hx
      · rfl
      · rfl
      · exact fun _ => Iff.rfl
  · simp only [Ledger.move, Function.update_apply]
    split
    · exact hk
    · exact h.area_lt y hy
  · apply h.chained.congr
    · intro y _
      unfold chainNext
      rw [mem_setSlab, hrel.hNext_eq]
    · intro y _
      rw [hkey]
      rfl
    · exact fun _ => rfl
    · exact fun _ => Iff.rfl
  · exact (h.whole y hy).congr (hrel.body_eq y.addr)
  · rw [hkey, hkey] at heq
    exact h.keys y z hy hz heq

/-- `update_item` puts an item in front of a list. -/
theorem Kept.relink (h : s.Kept g live) (hi : i < g.count) (hx : g.InSlab i x)
    (harea : (s.mem.item x.addr).area = g.area x) (hk : k < TAIR_MAX_AREA_COUNT) :
    ∃ sl, (s.slab i).updateItem x.addr k = some sl ∧ s.mem.ItemsRelinked sl.mem ∧
      (s.slabs i).SamePages sl.mng ∧ sl.mng.itemCount = (s.slabs i).itemCount ∧
      (s.setSlab i sl).Kept (g.move x k) live := by
  have hLA : ∀ y, g.InSlab i y → g.InUse y := fun y hy => Ledger.inUse_of hi hy
  obtain ⟨s₁, hunlink, hrel₁, hsame₁, hcount₁, hitem₁, hbeside₁, hlisted₁⟩ :=
    (h.listed i hi).unlinkItem (A := g.InUse) h.placed hLA hx harea (h.area_lt x (hLA x hx))
  have hplaced₁ : Placed s₁.mem g.InUse := by
    apply h.placed.congr
    intro y _
    rw [hrel₁.itemId_eq]
    rfl
  obtain ⟨s₂, hlink, hrel₂, hsame₂, hcount₂, hitem₂, hbeside₂, hlisted₂⟩ :=
    hlisted₁.linkItem (A := g.InUse) hplaced₁ (fun y hy => hLA y hy.1) (hLA x hx)
      (fun hxx => hxx.2 rfl) hk
  have hrel : s.mem.ItemsRelinked s₂.mem := Memory.ItemsRelinked.trans hrel₁ hrel₂
  have hsame : (s.slabs i).SamePages s₂.mng := SlabManager.SamePages.trans hsame₁ hsame₂
  refine ⟨s₂, ?_, hrel, hsame, hcount₂.trans hcount₁, ?_⟩
  · unfold Slab.updateItem
    rw [hunlink]
    exact hlink
  · apply h.relisted hi hx hk hrel hsame
    · intro y hy hyi
      have hyx : y ≠ x := by
        rintro rfl
        exact hyi hx
      rw [hitem₂ y hy hyx fun hand => hyi hand.1, hitem₁ y hy hyi]
      rfl
    · intro a ha
      rw [hbeside₂ a ha, hbeside₁ a ha]
      rfl
    · apply hlisted₂.congr (fun _ _ => rfl) (fun _ _ => rfl) (fun _ _ => rfl) rfl rfl
      intro y
      rcases eq_or_ne y x with rfl | hyx
      · simp [hx]
      · simp [hyx]

/-- The counters of a slab do not matter. -/
theorem Kept.recount (h : s.Kept g live) (i : Nat) (itemCount : Nat → UInt64) (evictIndex : Nat) :
    (s.setSlab i ⟨s.mem, { s.slabs i with itemCount, evictIndex }⟩).Kept g live := by
  have hpaged : (s.setSlab i ⟨s.mem, { s.slabs i with itemCount, evictIndex }⟩).Paged g :=
    h.within .refl (samePages_setSlab rfl) rfl
  refine ⟨hpaged, fun j hj => ?_, h.area_lt, h.chained, h.inUse, h.whole, h.keys, h.unlinked⟩
  rcases eq_or_ne j i with rfl | hji
  · rw [slab_setSlab_self]
    exact h.listed j hj
  · rw [slab_setSlab_ne hji]
    exact h.listed j hj

end Store

/-! # Taking an item -/

/-- The item `x` of slab `i`, free before, is in use and in the list of the area `k`. -/
structure Ledger.Taken (g g' : Ledger) (i : Nat) (x : ItemId) (k : Nat) : Prop where
  count_eq : g'.count = g.count
  shape_eq : g'.shape = g.shape
  fresh : ¬ g.InUse x
  inSlab : ∀ j < g.count, ∀ y, g'.InSlab j y ↔ (j = i ∧ y = x) ∨ g.InSlab j y
  area_eq : g'.area = Function.update g.area x k
  nonempty : ∀ j, (g.owned j).Nonempty → (g'.owned j).Nonempty

/-- What becomes of the page `p` of slab `i` when an item of it is free again: without an item
in use it goes back to the pool if the slab has two others, and it stays otherwise. -/
inductive Ledger.Repaged (g g' : Ledger) (pool pool' : MemPool) (i p : Nat) : Prop where
  | stays (owned_eq : g'.owned i = g.owned i) (bitmap_eq : pool'.pageBitmap = pool.pageBitmap)
      (needed : (g.owned i).card ≤ 2 ∨ ∃ y, (g.shape i).IsPlace p y ∧ g'.InSlab i y)
  | goes (owned_eq : g'.owned i = (g.owned i).erase p)
      (bitmap_eq : pool'.pageBitmap = Function.update pool.pageBitmap p false)
      (many : 3 ≤ (g.owned i).card)

/-- The item `x` is free again. -/
structure Ledger.Given (g g' : Ledger) (x : ItemId) : Prop where
  count_eq : g'.count = g.count
  shape_eq : g'.shape = g.shape
  inSlab : ∀ j < g.count, ∀ y, g'.InSlab j y ↔ g.InSlab j y ∧ y ≠ x
  area_eq : g'.area = g.area
  nonempty : ∀ j, (g.owned j).Nonempty → (g'.owned j).Nonempty

namespace Ledger

variable {g g' : Ledger} {i k : Nat} {x y : ItemId}

theorem Taken.inUse (h : g.Taken g' i x k) (hi : i < g.count) :
    g'.InUse y ↔ y = x ∨ g.InUse y := by
  unfold InUse
  rw [h.count_eq]
  constructor
  · rintro ⟨j, hj, hy⟩
    rcases (h.inSlab j hj y).mp hy with ⟨-, rfl⟩ | hy
    · exact Or.inl rfl
    · exact Or.inr ⟨j, hj, hy⟩
  · rintro (rfl | ⟨j, hj, hy⟩)
    · exact ⟨i, hi, (h.inSlab i hi y).mpr (Or.inl ⟨rfl, rfl⟩)⟩
    · exact ⟨j, hj, (h.inSlab j hj y).mpr (Or.inr hy)⟩

theorem Given.inUse (h : g.Given g' x) : g'.InUse y ↔ g.InUse y ∧ y ≠ x := by
  unfold InUse
  rw [h.count_eq]
  constructor
  · rintro ⟨j, hj, hy⟩
    obtain ⟨hy, hyx⟩ := (h.inSlab j hj y).mp hy
    exact ⟨⟨j, hj, hy⟩, hyx⟩
  · rintro ⟨⟨j, hj, hy⟩, hyx⟩
    exact ⟨j, hj, (h.inSlab j hj y).mpr ⟨hy, hyx⟩⟩

end Ledger

namespace Store

variable {s s' : Store} {g : Ledger} {live live' : ItemId → Prop} {i j k p : Nat} {x y : ItemId}
  {sl : Slab} {l : List ItemId}

theorem Paged.inSlab_iff (h : s.Paged g) (hi : i < g.count) : g.InSlab i y ↔
    ∃ q ∈ g.owned i, (s.slabs i).IsPlace q y ∧ y ∉ g.free q := by
  unfold Ledger.InSlab
  rw [← h.shape_eq i hi]

theorem Paged.used (h : s.Paged g) (hi : i < g.count) (hp : p ∈ g.owned i) :
    s.mem.pool.pageBitmap p = true := (h.stock hi hp).used

/-- A page that a slab takes an item from is no other slab's. -/
theorem Paged.notMem_owned (h : s.Paged g) (hi : i < g.count) (hj : j < g.count) (hji : j ≠ i)
    (hcharged : Charged (s.slab i) sl (g.owned i) g.free p x l) : p ∉ g.owned j := by
  intro hpj
  by_cases hpi : p ∈ g.owned i
  · exact hji (h.owner_unique hj hi hpj hpi)
  · have hclear := hcharged.fresh hpi
    change s.mem.pool.pageBitmap p = false at hclear
    rw [h.used hj hpj] at hclear
    exact Bool.noConfusion hclear

/-- The pages once a slab has taken an item. -/
theorem Paged.charged (h : s.Paged g) (hi : i < g.count)
    (hcharged : Charged (s.slab i) sl (g.owned i) g.free p x l) :
    (s.setSlab i sl).Paged
      (g.repage i (Insert.insert p (g.owned i)) (Function.update g.free p l)) := by
  apply h.exchange hi hcharged.books hcharged.same.shape_eq hcharged.outside hcharged.total
  intro j hj hji q hq
  have hqp : q ≠ p := by
    rintro rfl
    exact h.notMem_owned hi hj hji hcharged hq
  have hqi : q ∉ Insert.insert p (g.owned i) := by
    rw [Finset.mem_insert, not_or]
    exact ⟨hqp, fun hqi => hji (h.owner_unique hj hi hq hqi)⟩
  refine ⟨hqi, hqi, Function.update_of_ne hqp .., ?_⟩
  rw [hcharged.bitmap, Function.update_of_ne hqp]
  rfl

/-- The items in use once a slab has taken one. -/
theorem Paged.taken (h : s.Paged g) (hi : i < g.count)
    (hcharged : Charged (s.slab i) sl (g.owned i) g.free p x l) :
    g.Taken ((g.repage i (Insert.insert p (g.owned i)) (Function.update g.free p l)).move x k) i x k := by
  refine ⟨rfl, rfl, ?_, fun j hj y => ?_, rfl, ?_⟩
  · rintro ⟨j, hj, q, hq, hx, hxfree⟩
    have hpaged := h.charged hi hcharged
    have hplace : (g.shape i).IsPlace p x := by
      rw [← h.shape_eq i hi]
      exact hcharged.place
    have hp_lt : p < MAX_PAGES_NO := by
      apply hpaged.page_lt (i := i) hi
      rw [Ledger.owned_repage_self]
      exact Finset.mem_insert_self p _
    obtain rfl : q = p := by rw [← hx.page (h.page_lt hj hq), hplace.page hp_lt]
    obtain rfl : j = i := by
      by_contra hji
      exact h.notMem_owned hi hj hji hcharged hq
    rw [hcharged.old hq] at hxfree
    exact hxfree (List.mem_cons_self ..)
  · rw [Ledger.inSlab_move]
    rcases eq_or_ne j i with rfl | hji
    · rw [h.inSlab_iff hj]
      unfold Ledger.InSlab
      rw [Ledger.owned_repage_self, Ledger.free_repage, Ledger.shape_repage, ← h.shape_eq j hj]
      simp only [true_and]
      exact hcharged.inUse y
    · unfold Ledger.InSlab
      rw [Ledger.owned_repage_ne hji, Ledger.free_repage, Ledger.shape_repage]
      constructor
      · rintro ⟨q, hq, hy, hyl⟩
        have hqp : q ≠ p := by
          rintro rfl
          exact h.notMem_owned hi hj hji hcharged hq
        rw [Function.update_of_ne hqp] at hyl
        exact Or.inr ⟨q, hq, hy, hyl⟩
      · rintro (⟨heq, -⟩ | ⟨q, hq, hy, hyl⟩)
        · exact absurd heq hji
        · have hqp : q ≠ p := by
            rintro rfl
            exact h.notMem_owned hi hj hji hcharged hq
          refine ⟨q, hq, hy, ?_⟩
          rwa [Function.update_of_ne hqp]
  · intro j hj
    rw [Ledger.owned_move]
    rcases eq_or_ne j i with rfl | hji
    · rw [Ledger.owned_repage_self]
      exact ⟨p, Finset.mem_insert_self p _⟩
    · rw [Ledger.owned_repage_ne hji]
      exact hj

/-- Taking an item leaves the items in use as they are. -/
theorem Paged.item_charged (h : s.Paged g) (hi : i < g.count)
    (hcharged : Charged (s.slab i) sl (g.owned i) g.free p x l) (hy : g.InUse y) :
    sl.mem.item y.addr = s.mem.item y.addr := by
  obtain ⟨j, hj, q, hq, hplace, -⟩ := hy
  have hfst : y.addr.1 = q := hplace.addr_fst (h.page_lt hj hq)
  rcases eq_or_ne j i with rfl | hji
  · apply hcharged.items
    rw [hfst]
    exact hq
  · apply hcharged.outside.item_eq
    rw [hfst, Finset.mem_insert, not_or]
    refine ⟨?_, fun hqi => hji (h.owner_unique hj hi hq hqi)⟩
    rintro rfl
    exact h.notMem_owned hi hj hji hcharged hq

/-- Taking an item links nothing that is not in use. -/
theorem unlinked_charged {a : Addr} (hcharged : Charged (s.slab i) sl (g.owned i) g.free p x l)
    (ha : ∀ y, g.InUse y → a ≠ y.addr) :
    ((sl.mem.item a).prev = 0 ∧ (sl.mem.item a).next = 0) ∨
      ((∀ y, g.InUse y → a ≠ y.addr) ∧ (sl.mem.item a).prev = (s.mem.item a).prev ∧
        (sl.mem.item a).next = (s.mem.item a).next) := by
  by_cases hold : a.1 ∈ g.owned i
  · have hitem : sl.mem.item a = s.mem.item a := hcharged.items a hold
    rw [hitem]
    exact Or.inr ⟨ha, rfl, rfl⟩
  · by_cases hap : a.1 = p
    · exact Or.inl (hcharged.unlinked (hap ▸ hold) a hap)
    · have hitem : sl.mem.item a = s.mem.item a := by
        apply hcharged.outside.item_eq
        simp [hap, hold]
      rw [hitem]
      exact Or.inr ⟨ha, rfl, rfl⟩

/-- `alloc_new_item` finds the slab full, or takes an item that was free. -/
theorem Kept.allocNewItem (h : s.Kept g live) (hi : i < g.count) (hk : k < TAIR_MAX_AREA_COUNT) :
    ((s.slab i).allocNewItem k = some (none, s.slab i) ∧ ∀ p ∈ g.owned i, g.free p = []) ∨
    ∃ x sl g', (s.slab i).allocNewItem k = some (some x.addr, sl) ∧ g.Taken g' i x k ∧
      (s.setSlab i sl).Kept g' live ∧ (sl.mem.item x.addr).itemId = x ∧
      sl.mng.itemCount = (s.slabs i).itemCount ∧
      ∀ y, g.InUse y → (sl.mem.item y.addr).body = (s.mem.item y.addr).body := by
  rcases (h.books i hi).allocNewItem hk with halloc | ⟨p, x, l, s₁, s₂, hcharged, hlink, halloc⟩
  · exact Or.inl halloc
  right
  have hpaged₁ := h.charged hi hcharged
  have htaken := h.taken (k := k) hi hcharged
  have hitem₁ : ∀ y, g.InUse y → s₁.mem.item y.addr = s.mem.item y.addr :=
    fun y hy => h.item_charged hi hcharged hy
  generalize hg₁ : g.repage i (Insert.insert p (g.owned i)) (Function.update g.free p l) = g₁ at *
  have hg₁_count : g₁.count = g.count := by rw [← hg₁, Ledger.count_repage]
  have hg₁_area : g₁.area = g.area := by rw [← hg₁, Ledger.area_repage]
  have hi₁ : i < g₁.count := hg₁_count ▸ hi
  have hinUse : ∀ y, g₁.InUse y ↔ y = x ∨ g.InUse y := fun y => htaken.inUse hi
  have hinSlab : ∀ j < g.count, ∀ y, g₁.InSlab j y ↔ (j = i ∧ y = x) ∨ g.InSlab j y :=
    htaken.inSlab
  have hx : g₁.InSlab i x := (hinSlab i hi x).mpr (Or.inl ⟨rfl, rfl⟩)
  have hx_old : ¬ g.InSlab i x := fun hx' => htaken.fresh (Ledger.inUse_of hi hx')
  have hplaced₁ : Placed s₁.mem g₁.InUse := hpaged₁.placed
  -- the item joins its list
  have hlisted₁ : Listed s₁ g.area (g.InSlab i) := by
    apply (h.listed i hi).congr
    · exact fun y hy => congrArg MdbItem.next (hitem₁ y (Ledger.inUse_of hi hy))
    · exact fun y hy => congrArg MdbItem.prev (hitem₁ y (Ledger.inUse_of hi hy))
    · exact fun _ _ => rfl
    · exact hcharged.same.itemHead_eq
    · exact hcharged.same.itemTail_eq
    · exact fun _ => Iff.rfl
  obtain ⟨s₂', hlink', hrel, hsame, hcount, hitem₂, hbeside, hlisted₂⟩ :=
    hlisted₁.linkItem (A := g₁.InUse) hplaced₁
      (fun y hy => (hinUse y).mpr (Or.inr (Ledger.inUse_of hi hy)))
      (Ledger.inUse_of hi₁ hx) hx_old hk
  obtain rfl : s₂ = s₂' := by
    rw [hlink] at hlink'
    exact Option.some.inj hlink'
  have hpaged₂ : (s.setSlab i s₂).Paged g₁ := by
    apply hpaged₁.within
    · exact .of_relinked hrel hbeside
    · intro j
      rcases eq_or_ne j i with rfl | hji
      · rw [slabs_setSlab_self, slabs_setSlab_self]
        exact hsame
      · rw [slabs_setSlab_ne hji, slabs_setSlab_ne hji]
        exact .refl
    · rfl
  have hbody : ∀ y, g.InUse y → (s₂.mem.item y.addr).body = (s.mem.item y.addr).body := by
    intro y hy
    rw [hrel.body_eq, hitem₁ y hy]
  have hkey : ∀ y, live y → (s.setSlab i s₂).keyOf y = s.keyOf y :=
    fun y hy => MdbItem.key_congr (hbody y (h.inUse y hy))
  refine ⟨x, s₂, g₁.move x k, halloc, htaken, ⟨hpaged₂.move x k, fun j hj => ?_, fun y hy => ?_, ?_,
    fun y hy => (hinUse y).mpr (Or.inr (h.inUse y hy)), fun y hy => ?_, fun y z hy hz heq => ?_,
    ?_⟩, ?_, ?_, hbody⟩
  · rw [Ledger.count_move, hg₁_count] at hj
    rcases eq_or_ne j i with rfl | hji
    · rw [slab_setSlab_self]
      apply hlisted₂.congr (fun _ _ => rfl) (fun _ _ => rfl) _ rfl rfl
      · intro y
        rw [Ledger.inSlab_move, hinSlab j hj]
        simp
      · intro y _
        rw [htaken.area_eq]
    · rw [slab_setSlab_ne hji]
      have hnot : ∀ y, g.InSlab j y → ¬ g.InSlab i y := fun y hy => h.notMem_slab hi hj hji hy
      have hne : ∀ y, g.InSlab j y → y ≠ x := by
        rintro y hy rfl
        exact htaken.fresh (Ledger.inUse_of hj hy)
      have hsame' : ∀ y, g.InSlab j y → s₂.mem.item y.addr = s.mem.item y.addr := by
        intro y hy
        have hy' := Ledger.inUse_of hj hy
        rw [hitem₂ y ((hinUse y).mpr (Or.inr hy')) (hne y hy) (hnot y hy), hitem₁ y hy']
      apply (h.listed j hj).congr
      · exact fun y hy => congrArg MdbItem.next (hsame' y hy)
      · exact fun y hy => congrArg MdbItem.prev (hsame' y hy)
      · intro y hy
        rw [htaken.area_eq]
        exact Function.update_of_ne (hne y hy) ..
      · rfl
      · rfl
      · intro y
        rw [Ledger.inSlab_move, hinSlab j hj]
        simp [hji]
  · rw [htaken.area_eq, Function.update_apply]
    split
    · exact hk
    · next hyx => exact h.area_lt y (((hinUse y).mp hy).resolve_left hyx)
  · apply h.chained.congr
    · intro y hy
      unfold chainNext
      rw [mem_setSlab, hrel.hNext_eq, hitem₁ y (h.inUse y hy)]
    · intro y hy
      rw [hkey y hy]
      rfl
    · exact fun _ => rfl
    · exact fun _ => Iff.rfl
  · exact (h.whole y hy).congr (hbody y (h.inUse y hy))
  · rw [hkey y hy, hkey z hz] at heq
    exact h.keys y z hy hz heq
  · apply h.unlinked.step
    intro a ha
    have hkeep : (s.setSlab i s₂).mem.item a = s₁.mem.item a := hbeside a ha
    rw [hkeep]
    exact unlinked_charged hcharged fun y hy => ha y ((hinUse y).mpr (Or.inr hy))
  · rw [hrel.itemId_eq]
    exact hcharged.item_id
  · rw [hcount, hcharged.same.itemCount_eq]
    rfl

/-! # Giving an item back -/

/-- The pages once a slab has got an item back. -/
theorem Paged.freed (h : s.Paged g) (hi : i < g.count) {owned' : Finset Nat} (hp : p ∈ g.owned i)
    (hfreed : Freed (s.slab i) sl (g.owned i) owned' g.free p x) :
    (s.setSlab i sl).Paged (g.repage i owned' (Function.update g.free p (x :: g.free p))) := by
  have hsub : owned' ⊆ g.owned i := by
    rcases hfreed.owned_eq with ⟨rfl, -⟩ | ⟨rfl, -⟩
    · exact Finset.Subset.refl _
    · exact Finset.erase_subset p _
  apply h.exchange hi hfreed.books hfreed.same.shape_eq hfreed.outside hfreed.total
  intro j hj hji q hq
  have hqi : q ∉ g.owned i := fun hqi => hji (h.owner_unique hj hi hq hqi)
  have hqp : q ≠ p := by
    rintro rfl
    exact hqi hp
  refine ⟨hqi, fun hq' => hqi (hsub hq'), Function.update_of_ne hqp .., ?_⟩
  rcases hfreed.owned_eq with ⟨-, hbitmap, -⟩ | ⟨-, -, -, hbitmap⟩
  · rw [hbitmap]
    rfl
  · rw [hbitmap, Function.update_of_ne hqp]
    rfl

/-- The items in use once a slab has got one back. -/
theorem Paged.given (h : s.Paged g) (hi : i < g.count) {owned' : Finset Nat} (hp : p ∈ g.owned i)
    (hx : (g.shape i).IsPlace p x) (hxl : x ∉ g.free p)
    (hfreed : Freed (s.slab i) sl (g.owned i) owned' g.free p x) :
    g.Given (g.repage i owned' (Function.update g.free p (x :: g.free p))) x := by
  refine ⟨rfl, rfl, fun j hj y => ?_, rfl, fun j hj => ?_⟩
  · unfold Ledger.InSlab
    rcases eq_or_ne j i with rfl | hji
    · rw [Ledger.owned_repage_self, Ledger.free_repage, Ledger.shape_repage, ← h.shape_eq j hj]
      rw [← h.shape_eq j hj] at hx
      exact hfreed.inUse (h.books j hj) hp hx hxl y
    · rw [Ledger.owned_repage_ne hji, Ledger.free_repage, Ledger.shape_repage]
      have hqp : ∀ q ∈ g.owned j, q ≠ p := by
        rintro q hq rfl
        exact hji (h.owner_unique hj hi hq hp)
      constructor
      · rintro ⟨q, hq, hy, hyl⟩
        rw [Function.update_of_ne (hqp q hq)] at hyl
        refine ⟨⟨q, hq, hy, hyl⟩, ?_⟩
        rintro rfl
        exact h.notMem_slab hi hj hji ⟨q, hq, hy, hyl⟩ ⟨p, hp, hx, hxl⟩
      · rintro ⟨⟨q, hq, hy, hyl⟩, -⟩
        refine ⟨q, hq, hy, ?_⟩
        rwa [Function.update_of_ne (hqp q hq)]
  · rcases eq_or_ne j i with rfl | hji
    · rw [Ledger.owned_repage_self]
      rcases hfreed.owned_eq with ⟨rfl, -⟩ | ⟨-, hcard, -⟩
      · exact hj
      · exact Finset.card_pos.mp (lt_of_lt_of_le Nat.two_pos hcard)
    · rw [Ledger.owned_repage_ne hji]
      exact hj

/-- The page of an item that a slab has got back. -/
theorem Paged.repaged (h : s.Paged g) (hi : i < g.count) {owned' : Finset Nat} (hp : p ∈ g.owned i)
    (hx : (g.shape i).IsPlace p x) (hxl : x ∉ g.free p)
    (hfreed : Freed (s.slab i) sl (g.owned i) owned' g.free p x) :
    g.Repaged (g.repage i owned' (Function.update g.free p (x :: g.free p))) s.mem.pool sl.mem.pool
      i p := by
  have hstock := h.stock hi hp
  rcases hfreed.owned_eq with ⟨howned, hbitmap, hfew⟩ | ⟨howned, hcard, -, hbitmap⟩
  · refine .stays (by rw [Ledger.owned_repage_self, howned]) hbitmap ?_
    rcases Classical.em (∃ y, (g.shape i).IsPlace p y ∧ y ∉ x :: g.free p) with ⟨y, hy, hyl⟩ | hall
    · refine Or.inr ⟨y, hy, p, ?_, hy, ?_⟩
      · rw [Ledger.owned_repage_self, howned]
        exact hp
      · rw [Ledger.free_repage, Function.update_self]
        exact hyl
    · left
      apply hfew
      have hshape : (s.slab i).mng.perSlab = (g.shape i).perSlab :=
        congrArg SlabShape.perSlab (h.shape_eq i hi)
      have hsub : (g.shape i).places p ⊆ x :: g.free p := by
        intro y hy
        by_contra hyl
        exact hall ⟨y, SlabShape.mem_places.mp hy, hyl⟩
      rw [hshape]
      apply Nat.le_antisymm
      · apply SlabShape.length_le_perSlab (p := p) (List.nodup_cons.mpr ⟨hxl, hstock.nodup⟩)
        intro y hy
        rcases List.mem_cons.mp hy with rfl | hy
        · exact hx
        · exact hstock.place y hy
      · have hle := (SlabShape.nodup_places.subperm hsub).length_le
        rwa [SlabShape.length_places] at hle
  · refine .goes (by rw [Ledger.owned_repage_self, howned]) hbitmap ?_
    rw [howned, Finset.card_erase_of_mem hp] at hcard
    omega

/-- `free_item` gives back an item that is not in the table. -/
theorem Kept.freeItem (h : s.Kept g live) (hi : i < g.count) (hx : g.InSlab i x)
    (hlive : ¬ live x) (hid : (s.mem.item x.addr).itemId = x)
    (harea : (s.mem.item x.addr).area = g.area x) :
    ∃ sl g', (s.slab i).freeItem x.addr = some sl ∧ g.Given g' x ∧
      (s.setSlab i sl).Kept g' live ∧ sl.mng.itemCount = (s.slabs i).itemCount ∧
      s.mem.Fades sl.mem ∧
      (∀ y, g.InUse y → (sl.mem.item y.addr).body = (s.mem.item y.addr).body) ∧
      sl.mem.pool.totalPages = s.mem.pool.totalPages ∧
      g.Repaged g' s.mem.pool sl.mem.pool i x.pageId.toNat := by
  have hLA : ∀ y, g.InSlab i y → g.InUse y := fun y hy => Ledger.inUse_of hi hy
  obtain ⟨s₁, hunlink, hrel, hsame, hcount, hitem₁, hbeside, hlisted₁⟩ :=
    (h.listed i hi).unlinkItem (A := g.InUse) h.placed hLA hx harea (h.area_lt x (hLA x hx))
  have hpaged₁ : (s.setSlab i s₁).Paged g :=
    h.within (.of_relinked hrel hbeside) (samePages_setSlab hsame) rfl
  obtain ⟨p, hp, hplace, hxl⟩ := hx
  have hplace' : (s.slab i).mng.IsPlace p x := by
    change (s.slabs i).IsPlace p x
    rw [h.shape_eq i hi]
    exact hplace
  obtain ⟨sl, owned', hfree, hfreed⟩ :=
    (h.books i hi).freeItem hp hplace' hxl hid hunlink hrel
  have hfreed₁ : Freed ((s.setSlab i s₁).slab i) sl (g.owned i) owned' g.free p x := by
    rw [slab_setSlab_self]
    exact hfreed
  have hpaged := hpaged₁.freed hi hp hfreed₁
  have hgiven := hpaged₁.given hi hp hplace hxl hfreed₁
  have hrepaged := hpaged₁.repaged hi hp hplace hxl hfreed₁
  rw [setSlab_setSlab] at hpaged
  rw [mem_setSlab, hrel.pool_eq] at hrepaged
  generalize g.repage i owned' (Function.update g.free p (x :: g.free p)) = g'
    at hpaged hgiven hrepaged
  rw [← hplace.page (h.page_lt hi hp)] at hrepaged
  have hinUse : ∀ y, g'.InUse y ↔ g.InUse y ∧ y ≠ x := fun y => hgiven.inUse
  have hx : g.InSlab i x := ⟨p, hp, hplace, hxl⟩
  have hne : ∀ y, g.InUse y → y ≠ x → y.addr ≠ x.addr :=
    fun y hy hyx heq => hyx (h.placed.apart y x hy (hLA x hx) heq)
  have hbody : ∀ y, g.InUse y → (sl.mem.item y.addr).body = (s.mem.item y.addr).body := by
    intro y hy
    refine Eq.trans ?_ (hrel.body_eq y.addr)
    rcases eq_or_ne y x with rfl | hyx
    · rw [hfreed.item_eq]
      rfl
    · rw [hfreed.items y.addr (hne y hy hyx)]
  have hlive_ne : ∀ y, live y → y ≠ x := by
    rintro y hy rfl
    exact hlive hy
  have hkey : ∀ y, live y → (s.setSlab i sl).keyOf y = s.keyOf y :=
    fun y hy => MdbItem.key_congr (hbody y (h.inUse y hy))
  refine ⟨sl, g', hfree, hgiven, ⟨hpaged, fun j hj => ?_, fun y hy => ?_, ?_,
    fun y hy => (hinUse y).mpr ⟨h.inUse y hy, hlive_ne y hy⟩, fun y hy => ?_,
    fun y z hy hz heq => ?_, ?_⟩, ?_, .of_eq fun a => ?_, hbody, ?_, hrepaged⟩
  · rw [hgiven.count_eq] at hj
    rcases eq_or_ne j i with rfl | hji
    · rw [slab_setSlab_self]
      apply hlisted₁.congr
      · exact fun y hy => congrArg MdbItem.next (hfreed.items y.addr (hne y (hLA y hy.1) hy.2))
      · exact fun y hy => congrArg MdbItem.prev (hfreed.items y.addr (hne y (hLA y hy.1) hy.2))
      · exact fun y _ => congrFun hgiven.area_eq y
      · exact hfreed.same.itemHead_eq
      · exact hfreed.same.itemTail_eq
      · exact hgiven.inSlab j hj
    · rw [slab_setSlab_ne hji]
      have hsame' : ∀ y, g.InSlab j y → sl.mem.item y.addr = s.mem.item y.addr := by
        intro y hy
        have hyi := h.notMem_slab hi hj hji hy
        have hyx : y ≠ x := by
          rintro rfl
          exact hyi hx
        have hy' := Ledger.inUse_of hj hy
        rw [hfreed.items y.addr (hne y hy' hyx), hitem₁ y hy' hyi]
        rfl
      apply (h.listed j hj).congr
      · exact fun y hy => congrArg MdbItem.next (hsame' y hy)
      · exact fun y hy => congrArg MdbItem.prev (hsame' y hy)
      · exact fun y _ => congrFun hgiven.area_eq y
      · rfl
      · rfl
      · intro y
        rw [hgiven.inSlab j hj]
        constructor
        · exact fun hy => hy.1
        · refine fun hy => ⟨hy, ?_⟩
          rintro rfl
          exact h.notMem_slab hi hj hji hy hx
  · rw [hgiven.area_eq]
    exact h.area_lt y ((hinUse y).mp hy).1
  · apply h.chained.congr
    · intro y hy
      unfold chainNext
      rw [mem_setSlab, hfreed.items y.addr (hne y (h.inUse y hy) (hlive_ne y hy)), hrel.hNext_eq]
      rfl
    · intro y hy
      rw [hkey y hy]
      rfl
    · exact fun _ => rfl
    · exact fun _ => Iff.rfl
  · exact (h.whole y hy).congr (hbody y (h.inUse y hy))
  · rw [hkey y hy, hkey z hz] at heq
    exact h.keys y z hy hz heq
  · apply h.unlinked.step
    intro a ha
    rw [mem_setSlab]
    rcases eq_or_ne a x.addr with rfl | hax
    · left
      rw [hfreed.item_eq]
      exact ⟨rfl, rfl⟩
    · have hout : ∀ y, g.InUse y → a ≠ y.addr := by
        rintro y hy rfl
        have hyx : y ≠ x := by
          rintro rfl
          exact hax rfl
        exact ha y ((hinUse y).mpr ⟨hy, hyx⟩) rfl
      right
      rw [hfreed.items a hax, hbeside a hout]
      exact ⟨hout, rfl, rfl⟩
  · rw [hfreed.same.itemCount_eq, hcount]
    rfl
  · refine Eq.trans ?_ (hrel.exptime_eq a)
    rcases eq_or_ne a x.addr with rfl | ha
    · rw [hfreed.item_eq]
    · rw [hfreed.items a ha]
  · rw [hfreed.total, hrel.pool_eq]
    rfl

end Store

end Mdb
