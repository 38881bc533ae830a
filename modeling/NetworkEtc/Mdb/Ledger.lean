-- SUMMARY: What holds of the store at every moment: whose the pages are, the lists, the chains.
import Mathlib.Data.Finset.Prod
import NetworkEtc.Mdb.Manager
import NetworkEtc.Mdb.SlabRun

/-!
# The ledger of the store

A `Ledger` says which pages each slab has, which items are free and in the list of which
area the others are. `Kept` is what holds of a store with a ledger, also in the middle of
a call: then an item may be in use and not be in the hash table, or be in the list of
another area than its key says.
-/

namespace Mdb

open Library

/-- Whose the pages and the items are. -/
structure Ledger where
  count : Nat
  shape : Nat → SlabShape
  owned : Nat → Finset Nat
  free : Nat → List ItemId
  area : ItemId → Nat

namespace Ledger

/-- The item `x` of slab `i` is not free. -/
def InSlab (g : Ledger) (i : Nat) (x : ItemId) : Prop :=
  ∃ p ∈ g.owned i, (g.shape i).IsPlace p x ∧ x ∉ g.free p

/-- The item `x` is not free. -/
def InUse (g : Ledger) (x : ItemId) : Prop := ∃ i < g.count, g.InSlab i x

/-- The slab `i` has other pages. -/
def repage (g : Ledger) (i : Nat) (owned : Finset Nat) (free : Nat → List ItemId) : Ledger :=
  { g with owned := Function.update g.owned i owned, free }

/-- The item `x` is in the list of the area `k`. -/
def move (g : Ledger) (x : ItemId) (k : Nat) : Ledger :=
  { g with area := Function.update g.area x k }

section

variable {g : Ledger} {i j k : Nat} {x y : ItemId} {owned : Finset Nat}
  {free : Nat → List ItemId}

@[simp] theorem count_repage : (g.repage i owned free).count = g.count := rfl
@[simp] theorem shape_repage : (g.repage i owned free).shape = g.shape := rfl
@[simp] theorem free_repage : (g.repage i owned free).free = free := rfl
@[simp] theorem area_repage : (g.repage i owned free).area = g.area := rfl
@[simp] theorem count_move : (g.move x k).count = g.count := rfl
@[simp] theorem shape_move : (g.move x k).shape = g.shape := rfl
@[simp] theorem owned_move : (g.move x k).owned = g.owned := rfl
@[simp] theorem free_move : (g.move x k).free = g.free := rfl
@[simp] theorem inSlab_move : (g.move x k).InSlab i y ↔ g.InSlab i y := Iff.rfl
@[simp] theorem inUse_move : (g.move x k).InUse y ↔ g.InUse y := Iff.rfl

@[simp] theorem owned_repage_self : (g.repage i owned free).owned i = owned :=
  Function.update_self ..

theorem owned_repage_ne (h : j ≠ i) : (g.repage i owned free).owned j = g.owned j :=
  Function.update_of_ne h ..

theorem inUse_of (hi : i < g.count) (hx : g.InSlab i x) : g.InUse x := ⟨i, hi, hx⟩

end

end Ledger

/-- The item up to its links. -/
def MdbItem.body (it : MdbItem) : MdbItem := { it with hNext := 0, prev := 0, next := 0 }

/-- An item that has been written: its key has an area, and it fits in its place. -/
structure MdbItem.Whole (it : MdbItem) (size : Nat) : Prop where
  two_le : 2 ≤ it.keyLen.toNat
  length_data : it.data.length = it.keyLen.toNat + it.dataLen.toNat
  fits : itemHeaderSize + it.keyLen.toNat + it.dataLen.toNat ≤ size

section

variable {it it' : MdbItem} {size : Nat}

theorem MdbItem.Whole.length_key (h : it.Whole size) : it.key.length = it.keyLen.toNat := by
  unfold MdbItem.key
  rw [List.length_take, h.length_data]
  exact min_eq_left (Nat.le_add_right _ _)

@[simp] theorem MdbItem.key_body : it.body.key = it.key := rfl
@[simp] theorem MdbItem.value_body : it.body.value = it.value := rfl
@[simp] theorem MdbItem.area_body : it.body.area = it.area := rfl

theorem MdbItem.key_congr (h : it'.body = it.body) : it'.key = it.key := by
  rw [← key_body, h, key_body]

theorem MdbItem.value_congr (h : it'.body = it.body) : it'.value = it.value := by
  rw [← value_body, h, value_body]

theorem MdbItem.area_congr (h : it'.body = it.body) : it'.area = it.area := by
  rw [← area_body, h, area_body]

theorem MdbItem.itemId_congr (h : it'.body = it.body) : it'.itemId = it.itemId :=
  (congrArg MdbItem.itemId h :)

theorem MdbItem.Whole.congr (hwhole : it.Whole size) (h : it'.body = it.body) : it'.Whole size := by
  have hkey : it'.keyLen = it.keyLen := (congrArg MdbItem.keyLen h :)
  have hlen : it'.dataLen = it.dataLen := (congrArg MdbItem.dataLen h :)
  have hdata : it'.data = it.data := (congrArg MdbItem.data h :)
  exact ⟨hkey ▸ hwhole.two_le, by rw [hkey, hlen, hdata]; exact hwhole.length_data,
    by rw [hkey, hlen]; exact hwhole.fits⟩

theorem MdbItem.Whole.body (h : it.Whole size) : it.body.Whole size :=
  ⟨h.two_le, h.length_data, h.fits⟩

end

/-- `mem'` differs from `mem` in the items `A` only, and not in where these lie. -/
structure Memory.Within (A : ItemId → Prop) (mem mem' : Memory) : Prop where
  pool_eq : mem'.pool = mem.pool
  page_eq : mem'.page = mem.page
  item_eq : ∀ a, (∀ x, A x → a ≠ x.addr) → mem'.item a = mem.item a
  place_eq : ∀ a, (mem'.item a).itemId.clearFlags = (mem.item a).itemId.clearFlags

namespace Memory.Within

variable {A : ItemId → Prop} {mem mem' mem'' : Memory} {x : ItemId} {f : MdbItem → MdbItem}

theorem refl : mem.Within A mem := ⟨rfl, rfl, fun _ _ => rfl, fun _ => rfl⟩

theorem trans (h : mem.Within A mem') (h' : mem'.Within A mem'') : mem.Within A mem'' :=
  ⟨h'.pool_eq.trans h.pool_eq, h'.page_eq.trans h.page_eq,
    fun a ha => (h'.item_eq a ha).trans (h.item_eq a ha),
    fun a => (h'.place_eq a).trans (h.place_eq a)⟩

theorem setItem (hx : A x)
    (hf : (f (mem.item x.addr)).itemId.clearFlags = (mem.item x.addr).itemId.clearFlags) :
    mem.Within A (mem.setItem x.addr f) := by
  refine ⟨rfl, rfl, fun a ha => Memory.item_setItem_ne (ha x hx), fun a => ?_⟩
  rw [Memory.item_setItem]
  split
  · next heq => rw [hf, heq]
  · rfl

theorem of_relinked (hrel : mem.ItemsRelinked mem')
    (hitem : ∀ a, (∀ x, A x → a ≠ x.addr) → mem'.item a = mem.item a) : mem.Within A mem' :=
  ⟨hrel.pool_eq, hrel.page_eq, hitem, fun a => by rw [hrel.itemId_eq]⟩

end Memory.Within

namespace Store

/-- The pages of the slabs are in order and apart. -/
structure Paged (s : Store) (g : Ledger) : Prop where
  count_eq : s.slabsCount = g.count
  shape_eq : ∀ i < g.count, (s.slabs i).toSlabShape = g.shape i
  slabId_eq : ∀ i < g.count, (g.shape i).slabId = i
  books : ∀ i < g.count, Books (s.slab i) (g.owned i) g.free
  apart : ∀ i < g.count, ∀ j < g.count, i ≠ j → Disjoint (g.owned i) (g.owned j)

/-- Where the chain of an item goes on. -/
def chainNext (s : Store) (x : ItemId) : Option ItemId := (s.mem.item x.addr).hNext.place

/-- Where a chain starts. -/
def chainHead (s : Store) (b : Nat) : Option ItemId := (s.hashtable b).place

/-- The key of an item. -/
def keyOf (s : Store) (x : ItemId) : List UInt8 := (s.mem.item x.addr).key

/-- What is not in use is in no list of items. -/
def Unlinked (s : Store) (g : Ledger) : Prop :=
  ∀ a, (∀ x, g.InUse x → a ≠ x.addr) → (s.mem.item a).prev = 0 ∧ (s.mem.item a).next = 0

/-- What holds of the store, the items `live` being in the hash table. -/
structure Kept (s : Store) (g : Ledger) (live : ItemId → Prop) : Prop extends s.Paged g where
  listed : ∀ i < g.count, Listed (s.slab i) g.area (g.InSlab i)
  area_lt : ∀ x, g.InUse x → g.area x < TAIR_MAX_AREA_COUNT
  chained : Chained s.chainNext s.chainHead (fun x => s.getBucketIndex (s.keyOf x)) live
  inUse : ∀ x, live x → g.InUse x
  whole : ∀ x, live x → (s.mem.item x.addr).Whole x.slabSize.toNat
  keys : ∀ x y, live x → live y → s.keyOf x = s.keyOf y → x = y
  unlinked : s.Unlinked g

/-- An operation may change the links of items in use, and it may clear links. -/
theorem Unlinked.step {s s' : Store} {g g' : Ledger} (h : s.Unlinked g)
    (hstep : ∀ a, (∀ x, g'.InUse x → a ≠ x.addr) →
      ((s'.mem.item a).prev = 0 ∧ (s'.mem.item a).next = 0) ∨
      ((∀ x, g.InUse x → a ≠ x.addr) ∧ (s'.mem.item a).prev = (s.mem.item a).prev ∧
        (s'.mem.item a).next = (s.mem.item a).next)) : s'.Unlinked g' := by
  intro a ha
  cases hstep a ha with
  | inl hzero => exact hzero
  | inr hsame =>
    rw [hsame.2.1, hsame.2.2]
    exact h a hsame.1

theorem Unlinked.congr {s s' : Store} {g : Ledger} (h : s.Unlinked g)
    (hprev : ∀ a, (∀ x, g.InUse x → a ≠ x.addr) → (s'.mem.item a).prev = (s.mem.item a).prev)
    (hnext : ∀ a, (∀ x, g.InUse x → a ≠ x.addr) → (s'.mem.item a).next = (s.mem.item a).next) :
    s'.Unlinked g :=
  h.step fun a ha => Or.inr ⟨ha, hprev a ha, hnext a ha⟩

namespace Paged

variable {s s' : Store} {g : Ledger} {i j p q : Nat} {x y : ItemId}

theorem stock (h : s.Paged g) (hi : i < g.count) (hp : p ∈ g.owned i) :
    Stock (g.shape i) s.mem p (g.free p) := by
  rw [← h.shape_eq i hi]
  exact (h.books i hi).stock p hp

theorem page_lt (h : s.Paged g) (hi : i < g.count) (hp : p ∈ g.owned i) : p < MAX_PAGES_NO :=
  (h.stock hi hp).lt

/-- A page has one owner. -/
theorem owner_unique (h : s.Paged g) (hi : i < g.count) (hj : j < g.count) (hp : p ∈ g.owned i)
    (hp' : p ∈ g.owned j) : i = j := by
  by_contra hij
  exact Finset.disjoint_left.mp (h.apart i hi j hj hij) hp hp'

/-- A place names its slab. -/
theorem slab_eq (h : s.Paged g) (hi : i < g.count) (hx : g.InSlab i x) : x.slabId.toNat = i := by
  obtain ⟨p, -, hplace, -⟩ := hx
  rw [hplace.slab, h.slabId_eq i hi]

theorem size_eq (hx : g.InSlab i x) : x.slabSize.toNat = (g.shape i).slabSize := by
  obtain ⟨p, -, hplace, -⟩ := hx
  exact hplace.size

/-- Places at one address are one place, whether they are free or not. -/
theorem place_inj (h : s.Paged g) (hi : i < g.count) (hj : j < g.count) (hp : p ∈ g.owned i)
    (hq : q ∈ g.owned j) (hx : (g.shape i).IsPlace p x) (hy : (g.shape j).IsPlace q y)
    (haddr : x.addr = y.addr) : x = y := by
  have hp_lt := h.page_lt hi hp
  have hq_lt := h.page_lt hj hq
  obtain rfl : p = q := by rw [← hx.addr_fst hp_lt, haddr, hy.addr_fst hq_lt]
  obtain rfl := h.owner_unique hi hj hp hq
  exact hx.eq_of_addr hy hp_lt hp_lt haddr

/-- The items in use lie apart from one another. -/
theorem placed (h : s.Paged g) : Placed s.mem g.InUse := by
  refine ⟨?_, ?_, ?_⟩
  · rintro x y ⟨i, hi, p, hp, hx, -⟩ ⟨j, hj, q, hq, hy, -⟩ haddr
    exact h.place_inj hi hj hp hq hx hy haddr
  · rintro x ⟨i, hi, p, hp, hx, -⟩
    exact (h.stock hi hp).item_id x hx
  · rintro x ⟨i, hi, p, hp, hx, -⟩
    exact hx.ne_zero

/-- Free items lie apart from those in use. -/
theorem free_apart (h : s.Paged g) (hi : i < g.count) (hp : p ∈ g.owned i) (hy : y ∈ g.free p)
    (hx : g.InUse x) : y.addr ≠ x.addr := by
  obtain ⟨j, hj, q, hq, hx, hxfree⟩ := hx
  intro haddr
  have hy' := (h.stock hi hp).place y hy
  obtain rfl := h.place_inj hi hj hp hq hy' hx haddr
  have hpage : p = q := by rw [← hy'.page (h.page_lt hi hp), hx.page (h.page_lt hj hq)]
  exact hxfree (hpage ▸ hy)

/-- What is written into items in use does not matter to the pages. -/
theorem within (h : s.Paged g) (hmem : s.mem.Within g.InUse s'.mem)
    (hslabs : ∀ i, (s.slabs i).SamePages (s'.slabs i)) (hcount : s'.slabsCount = s.slabsCount) :
    s'.Paged g := by
  refine ⟨hcount.trans h.count_eq, fun i hi => ?_, h.slabId_eq, fun i hi => ?_, h.apart⟩
  · rw [(hslabs i).shape_eq]
    exact h.shape_eq i hi
  · have hbooks := h.books i hi
    refine ⟨?_, fun p hp => ?_, ?_⟩
    · change s'.mem.pool.Sound
      rw [hmem.pool_eq]
      exact hbooks.pool
    · change Stock (s'.slabs i).toSlabShape s'.mem p (g.free p)
      rw [(hslabs i).shape_eq]
      have hfree : ∀ y ∈ g.free p, s'.mem.item y.addr = s.mem.item y.addr :=
        fun y hy => hmem.item_eq y.addr fun x hx => h.free_apart hi hp hy hx
      apply (hbooks.stock p hp).congr
      · rw [hmem.pool_eq]
        rfl
      · rw [hmem.pool_eq]
        rfl
      · rw [hmem.page_eq]
        rfl
      · rw [hmem.page_eq]
        rfl
      · rw [hmem.page_eq]
        rfl
      · intro y hy
        rw [hfree y hy]
        rfl
      · intro y hy
        rw [hfree y hy]
        rfl
      · intro y _
        exact hmem.place_eq y.addr
    · apply Filed.samePages _ (hslabs i)
      apply hbooks.filed.congr
      intro q _
      exact .of_eq (congrFun hmem.page_eq q)

/-- A list of things told apart by two numbers below `n`. -/
theorem length_le_mul {l : List ItemId} (hnodup : l.Nodup) (f : ItemId → Nat × Nat) (n : Nat)
    (hlt : ∀ x, (f x).1 < n ∧ (f x).2 < n) (hinj : ∀ x ∈ l, ∀ y ∈ l, f x = f y → x = y) :
    l.length ≤ n * n := by
  have hmaps : Set.MapsTo f l.toFinset (Finset.range n ×ˢ Finset.range n : Finset _) := by
    intro x _
    simp [hlt x]
  have hinj' : Set.InjOn f l.toFinset := by
    intro x hx y hy heq
    exact hinj x (by simpa using hx) y (by simpa using hy) heq
  calc l.length = l.toFinset.card := (List.toFinset_card_of_nodup hnodup).symm
    _ ≤ (Finset.range n ×ˢ Finset.range n).card := Finset.card_le_card_of_injOn f hmaps hinj'
    _ = n * n := by rw [Finset.card_product, Finset.card_range]

/-- There are no more items than a walk along a chain allows for. -/
theorem length_le (h : s.Paged g) {l : List ItemId} (hnodup : l.Nodup)
    (hl : ∀ x ∈ l, g.InUse x) : l.length ≤ maxItems := by
  apply length_le_mul hnodup fun x => (x.pageId.toNat, x.offset.toNat)
  · intro x
    exact ⟨x.pageId.isLt, x.offset.isLt⟩
  · intro x hx y hy heq
    obtain ⟨i, hi, p, hp, hx, hxfree⟩ := hl x hx
    obtain ⟨j, hj, q, hq, hy, hyfree⟩ := hl y hy
    obtain ⟨hpage, hoffset⟩ := Prod.mk.inj heq
    obtain rfl : p = q := by rw [← hx.page (h.page_lt hi hp), hpage, hy.page (h.page_lt hj hq)]
    obtain rfl := h.owner_unique hi hj hp hq
    apply h.place_inj hi hj hp hq hx hy
    rw [ItemId.addr, ItemId.addr, hpage, hoffset, hx.size, hy.size]

end Paged

end Store

end Mdb
