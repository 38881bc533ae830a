-- SUMMARY: What alloc_item hands out: an item that was free, or one taken from the end of a list.
import NetworkEtc.Mdb.Slots

/-!
# Eviction

Between calls the store is `Settled`: the items in use are those in the hash table, each
in the list of its key's area. `alloc_item` gives an item that was free, or takes one away
from its owner; that one is still in the table, with its flags cleared.
-/

namespace Mdb

open Library

/-- The item that `evict_self` takes from the list of an area. -/
def Slab.selfVictim (s : Slab) (area : Nat) (crrntTime : UInt32) : Addr :=
  (Slab.findExpired s.mem crrntTime 50 (s.mng.itemTail area)).getD (s.mng.itemTail area).addr

/-- The item that `evict_any` takes. -/
def Slab.anyVictim (s : Slab) : Option Addr := do
  let start := if TAIR_MAX_AREA_COUNT ≤ s.mng.evictIndex then 0 else s.mng.evictIndex
  let index ← Slab.seekArea s.mng (TAIR_MAX_AREA_COUNT + 1) start
  some (s.mng.itemTail index).addr

/-- The item that loses its place to an item of the area, if one does. -/
def Slab.victim (s : Slab) (area : Nat) (crrntTime : UInt32) : Option Addr :=
  if s.mng.itemTail area = 0 then s.anyVictim else some (s.selfVictim area crrntTime)

/-- No page of the slab has a free item, and no page is left in the pool. -/
def Slab.Full (s : Slab) : Prop :=
  s.mng.partialPagesNo ≤ 0 ∧ s.mng.freePagesNo ≤ 0 ∧ s.mem.pool.freePages = 0

/-- `alloc_item` takes the place of another item: the slab is full, or the area has
exceeded its quota and has an item in the slab. -/
def Slab.Ousts (s : Slab) (area : Nat) (exceed : Bool) : Prop :=
  (exceed = true ∧ s.mng.itemTail area ≠ 0) ∨ s.Full

namespace Slab

variable {s s' : Slab} {k : Nat}

theorem takePage_of_full (h : s.Full) : s.takePage = some (none, s) := by
  unfold takePage
  rw [if_neg (not_lt.mpr h.1), if_neg (not_lt.mpr h.2.1)]
  unfold MemPool.allocPage
  rw [if_pos h.2.2]
  rfl

theorem full_of_takePage (h : s.takePage = some (none, s')) : s.Full := by
  unfold takePage at h
  split at h
  · -- a partial page is taken, or the call fails
    simp only [Option.bind_eq_bind, Option.ite_none_right_eq_some, Option.bind_eq_some_iff] at h
    obtain ⟨-, sl, -, heq⟩ := h
    exact absurd (congrArg Prod.fst (Option.some.inj heq)) (by simp)
  · next hpartial =>
    split at h
    · simp only [Option.bind_eq_bind, Option.ite_none_right_eq_some, Option.bind_eq_some_iff] at h
      obtain ⟨-, ⟨mem, head⟩, -, heq⟩ := h
      exact absurd (congrArg Prod.fst (Option.some.inj heq)) (by simp)
    · next hfree =>
      refine ⟨not_lt.mp hpartial, not_lt.mp hfree, ?_⟩
      simp only [Option.bind_eq_bind, Option.bind_eq_some_iff] at h
      obtain ⟨⟨page, pool⟩, halloc, h⟩ := h
      cases page with
      | some index => exact absurd (congrArg Prod.fst (Option.some.inj h)) (by simp)
      | none =>
        unfold MemPool.allocPage at halloc
        split at halloc
        · assumption
        · split at halloc
          · exact absurd halloc (by simp)
          · split at halloc
            · exact absurd (congrArg Prod.fst (Option.some.inj halloc)) (by simp)
            · exact absurd halloc (by simp)

theorem allocNewItem_of_full (h : s.Full) : s.allocNewItem k = some (none, s) := by
  unfold allocNewItem
  rw [takePage_of_full h]
  rfl

theorem full_of_allocNewItem (h : s.allocNewItem k = some (none, s')) : s.Full := by
  unfold allocNewItem at h
  simp only [Option.bind_eq_bind, Option.bind_eq_some_iff] at h
  obtain ⟨⟨page, s₁⟩, htake, h⟩ := h
  cases page with
  | none => exact full_of_takePage htake
  | some page =>
    simp only [Option.bind_eq_some_iff, Option.ite_none_left_eq_some,
      Option.ite_none_right_eq_some] at h
    obtain ⟨_, -, -, _, -, -, heq⟩ := h
    exact absurd (congrArg Prod.fst (Option.some.inj heq)) (by simp)

end Slab

namespace Store

/-- What is not in use has no expiry time. -/
def Blank (s : Store) (g : Ledger) : Prop :=
  ∀ a, (∀ x, g.InUse x → a ≠ x.addr) → (s.mem.item a).exptime = 0

/-- What holds of the store between calls. -/
structure Settled (s : Store) (g : Ledger) : Prop extends s.Kept g g.InUse where
  area_eq : ∀ x, g.InUse x → (s.mem.item x.addr).area = g.area x
  blank : s.Blank g

/-- `s'` has given out the item `x` of slab `i`, which was free. -/
structure Fresh (s s' : Store) (g g' : Ledger) (i : Nat) (x : ItemId) (k : Nat) : Prop where
  taken : g.Taken g' i x k
  kept : s'.Kept g' g.InUse
  item_id : (s'.mem.item x.addr).itemId = x
  body_eq : ∀ y, g.InUse y → (s'.mem.item y.addr).body = (s.mem.item y.addr).body
  fades : s.mem.Fades s'.mem
  store_eq : ∃ sl, s' = s.setSlab i sl
  itemCount_eq : (s'.slabs i).itemCount =
    Function.update (s.slabs i).itemCount k ((s.slabs i).itemCount k + 1)

/-- `s'` has given out the item `x` of slab `i`, which another key had. -/
structure Evicted (s s' : Store) (g : Ledger) (i : Nat) (x : ItemId) (k : Nat) : Prop where
  inSlab : g.InSlab i x
  kept : s'.Kept (g.move x k) g.InUse
  body_eq : ∀ y, g.InUse y → y ≠ x → (s'.mem.item y.addr).body = (s.mem.item y.addr).body
  self_eq : (s'.mem.item x.addr).body = { (s.mem.item x.addr).body with itemId := x }
  fades : s.mem.Fades s'.mem
  store_eq : ∃ sl, s' = s.setSlab i sl
  itemCount_eq : (s'.slabs i).itemCount =
    Function.update (Function.update (s.slabs i).itemCount (g.area x)
      ((s.slabs i).itemCount (g.area x) - 1)) k
      (Function.update (s.slabs i).itemCount (g.area x)
        ((s.slabs i).itemCount (g.area x) - 1) k + 1)

variable {s s' : Store} {g g' : Ledger} {i k : Nat} {x y : ItemId} {t : UInt32} {a : Addr}

theorem Evicted.item_id (h : s.Evicted s' g i x k) : (s'.mem.item x.addr).itemId = x :=
  (congrArg MdbItem.itemId h.self_eq :)

/-! # `evict_self` -/

/-- The walk of `evict_self` gives an item of the list. -/
theorem findExpired_spec {mem : Memory} {l : List ItemId} {n : Nat} {pos : ItemId}
    (hseg : Seg (fun x => (mem.item x.addr).prev.place) pos.place l none)
    (hfind : Slab.findExpired mem t n pos = some a) : ∃ x ∈ l, x.addr = a := by
  induction n generalizing pos l with
  | zero => exact absurd hfind (by simp [Slab.findExpired])
  | succ n ih =>
    unfold Slab.findExpired at hfind
    split at hfind
    · exact absurd hfind (by simp)
    · next hpos =>
      cases l with
      | nil => exact absurd (ItemId.place_eq_none.mp hseg) hpos
      | cons x l =>
        obtain ⟨hx, hrest⟩ := hseg
        obtain ⟨-, rfl⟩ := ItemId.place_eq_some.mp hx
        split at hfind
        · exact ⟨_, List.mem_cons_self .., Option.some.inj hfind⟩
        · obtain ⟨y, hy, rfl⟩ := ih hrest hfind
          exact ⟨y, List.mem_cons_of_mem _ hy, rfl⟩

/-- The list of an area ends with an item of it, and the walk from there stays in it. -/
theorem Settled.selfVictim (h : s.Settled g) (hi : i < g.count)
    (hk : (s.slabs i).itemTail k ≠ 0) :
    ∃ x, g.InSlab i x ∧ g.area x = k ∧ (s.slab i).selfVictim k t = x.addr := by
  obtain ⟨l, hlist, hmem⟩ := h.listed i hi k
  have hmem' : ∀ x, x ∈ l → g.InSlab i x ∧ g.area x = k := fun x => (hmem x).mp
  have hfirst : ((s.slabs i).itemTail k).place = some ((s.slabs i).itemTail k).clearFlags :=
    ItemId.place_eq_some.mpr ⟨hk, rfl⟩
  unfold Slab.selfVictim
  cases hfind : Slab.findExpired (s.slab i).mem t 50 ((s.slab i).mng.itemTail k) with
  | some a =>
    obtain ⟨x, hx, rfl⟩ := findExpired_spec hlist.back hfind
    obtain ⟨hxi, hxk⟩ := hmem' x (List.mem_reverse.mp hx)
    exact ⟨x, hxi, hxk, rfl⟩
  | none =>
    obtain ⟨hxi, hxk⟩ := (h.listed i hi).tail_place hk
    exact ⟨_, hxi, hxk, rfl⟩

/-- `CLEAR_FLAGS` and `update_item` on an item in the table. -/
theorem Settled.takeOver (h : s.Settled g) (hi : i < g.count) (hx : g.InSlab i x)
    (hk : k < TAIR_MAX_AREA_COUNT) :
    ∃ sl, ((s.slab i).clearItemFlags x.addr).updateItem x.addr k = some sl ∧
      (s.setSlab i sl).Kept (g.move x k) g.InUse ∧
      sl.mng.itemCount = (s.slabs i).itemCount ∧
      (∀ y, g.InUse y → y ≠ x → (sl.mem.item y.addr).body = (s.mem.item y.addr).body) ∧
      (sl.mem.item x.addr).body = { (s.mem.item x.addr).body with itemId := x } ∧
      s.mem.Fades sl.mem := by
  have hx' := Ledger.inUse_of hi hx
  have hid : (s.mem.item x.addr).itemId.clearFlags = x := h.placed.item_id x hx'
  have hkept : (s.setItem x.addr fun it => { it with itemId := it.itemId.clearFlags }).Kept g
      g.InUse := by
    refine h.write hx' (fun _ => ?_) ?_ (fun _ => ?_)
    · exact ⟨rfl, rfl, rfl⟩
    · rfl
    exact ⟨rfl, (h.whole x hx').two_le, (h.whole x hx').length_data, (h.whole x hx').fits⟩
  obtain ⟨sl, hupdate, hrel, -, hcount, hkept'⟩ := hkept.relink hi hx (k := k)
    (by rw [mem_setItem, Memory.item_setItem_self]; exact h.area_eq x hx') hk
  refine ⟨sl, hupdate, hkept', hcount, fun y hy hyx => ?_, ?_, ?_⟩
  · rw [hrel.body_eq, mem_setItem, Memory.item_setItem_ne]
    exact fun heq => hyx (h.placed.apart y x hy hx' heq)
  · rw [hrel.body_eq, mem_setItem, Memory.item_setItem_self, hid]
    rfl
  · apply Memory.Fades.trans _ (.of_relinked hrel)
    rw [mem_setItem]
    exact .setItem (Or.inl rfl)

/-- `evict_self` finds no item of the area, or takes one. -/
theorem Settled.evictSelf (h : s.Settled g) (hi : i < g.count) (hk : k < TAIR_MAX_AREA_COUNT)
    (t : UInt32) :
    ((s.slab i).evictSelf k t = some (none, s.slab i) ∧ (s.slab i).mng.itemTail k = 0) ∨
    ∃ x type sl, (s.slab i).evictSelf k t = some (some (x.addr, type), sl) ∧ type ≠ .new ∧
      (s.slab i).victim k t = some x.addr ∧ s.Evicted (s.setSlab i sl) g i x k := by
  unfold Slab.evictSelf Slab.victim
  simp only
  split
  · next hk0 => exact Or.inl ⟨rfl, hk0⟩
  right
  next hk0 =>
  obtain ⟨x, hx, hxk, hvictim⟩ := h.selfVictim (t := t) hi hk0
  have hx' := Ledger.inUse_of hi hx
  obtain ⟨sl, hupdate, hkept, hcount, hbody, hself, hfades⟩ := h.takeOver hi hx hk
  have hevicted : s.Evicted (s.setSlab i sl) g i x k := by
    refine ⟨hx, hkept, hbody, hself, hfades, ⟨sl, rfl⟩, ?_⟩
    rw [slabs_setSlab_self, hcount, hxk, Function.update_self, UInt64.sub_add_cancel,
      Function.update_idem, Function.update_eq_self]
  have harea : (((s.slab i).clearItemFlags x.addr).mem.item x.addr).area = k := by
    rw [← hxk, ← h.area_eq x hx']
    simp only [Slab.clearItemFlags, Memory.item_setItem_self]
    rfl
  unfold Slab.selfVictim at hvictim
  split
  · next a hfind =>
    rw [hfind] at hvictim
    obtain rfl : a = x.addr := hvictim
    rw [harea, hupdate]
    exact ⟨x, _, sl, rfl, by simp, by simp [Slab.selfVictim, hfind], hevicted⟩
  · next hfind =>
    rw [hfind] at hvictim
    have htail : ((s.slab i).mng.itemTail k).addr = x.addr := hvictim
    have hitem : ((s.slab i).mem.item x.addr).area = k := (h.area_eq x hx').trans hxk
    simp only [htail]
    rw [if_pos hitem, harea, hupdate]
    exact ⟨x, _, sl, rfl, by simp, by simp [Slab.selfVictim, hfind, htail], hevicted⟩

/-! # `evict_any` -/

/-- The loop of `evict_any` meets an area that has an item, before it has gone round. -/
theorem seekArea_spec {mng : SlabManager} {n : Nat} (hn : n < TAIR_MAX_AREA_COUNT)
    (htail : mng.itemTail n ≠ 0) {times index : Nat} (hindex : index < TAIR_MAX_AREA_COUNT)
    (htimes : (if index ≤ n then n - index else TAIR_MAX_AREA_COUNT - index + n) < times) :
    ∃ m, Slab.seekArea mng times index = some m ∧ m < TAIR_MAX_AREA_COUNT ∧
      mng.itemTail m ≠ 0 := by
  induction times generalizing index with
  | zero => exact absurd htimes (Nat.not_lt_zero _)
  | succ times ih =>
    unfold Slab.seekArea
    split
    · next hzero =>
      have hne : index ≠ n := by
        rintro rfl
        exact htail hzero
      apply ih
      · split <;> omega
      · split at htimes <;> split <;> split <;> omega
    · next htail' => exact ⟨index, rfl, hindex, htail'⟩

/-- `evict_any` takes an item of any area, if the slab has one in use. -/
theorem Settled.evictAny (h : s.Settled g) (hi : i < g.count) (hk : k < TAIR_MAX_AREA_COUNT)
    (hy : g.InSlab i y) (t : UInt32) :
    ∃ x type sl, (s.slab i).evictAny k t = some ((x.addr, type), sl) ∧ type ≠ .new ∧
      g.InSlab i x ∧ (s.slab i).anyVictim = some x.addr ∧
      (s.setSlab i sl).Kept (g.move x k) g.InUse ∧
      sl.mng.itemCount = (s.slabs i).itemCount ∧
      (∀ y, g.InUse y → y ≠ x → (sl.mem.item y.addr).body = (s.mem.item y.addr).body) ∧
      (sl.mem.item x.addr).body = { (s.mem.item x.addr).body with itemId := x } ∧
      s.mem.Fades sl.mem := by
  have hn : (s.slab i).mng.itemTail (g.area y) ≠ 0 := by
    rw [Ne, (h.listed i hi).tail_eq_zero]
    exact fun hall => hall y hy rfl
  have hn_lt := h.area_lt y (Ledger.inUse_of hi hy)
  unfold Slab.evictAny Slab.anyVictim
  rw [if_pos hk]
  generalize hstart : (if TAIR_MAX_AREA_COUNT ≤ (s.slab i).mng.evictIndex then 0
    else (s.slab i).mng.evictIndex) = start
  have hstart_lt : start < TAIR_MAX_AREA_COUNT := by
    rw [← hstart]
    split
    · decide
    · next hlt => exact not_le.mp hlt
  obtain ⟨m, hseek, hm_lt, hm⟩ : ∃ m, Slab.seekArea (s.slab i).mng (TAIR_MAX_AREA_COUNT + 1) start =
      some m ∧ m < TAIR_MAX_AREA_COUNT ∧ (s.slab i).mng.itemTail m ≠ 0 := by
    apply seekArea_spec hn_lt hn hstart_lt
    split <;> omega
  obtain ⟨hx, hxm⟩ := (h.listed i hi).tail_place hm
  generalize hx_eq : ((s.slab i).mng.itemTail m).clearFlags = x at hx hxm
  have haddr : ((s.slab i).mng.itemTail m).addr = x.addr := by
    rw [← hx_eq, ItemId.addr_clearFlags]
  -- `evict_index` is moved first
  have hset : (s.setSlab i ⟨s.mem, { s.slabs i with evictIndex := m }⟩).Settled g :=
    ⟨h.recount i (s.slabs i).itemCount m, h.area_eq, h.blank⟩
  obtain ⟨sl, hupdate, hkept, hcount, hbody, hself, hfades⟩ := hset.takeOver hi hx hk
  rw [slab_setSlab_self] at hupdate
  rw [setSlab_setSlab] at hkept
  rw [slabs_setSlab_self] at hcount
  refine ⟨x, if Slab.stale (s.mem.item x.addr) t then .expired else .evictAny, sl, ?_, ?_, hx, ?_,
    hkept, hcount, hbody, hself, hfades⟩
  · simp only [hseek, Option.bind_eq_bind, Option.bind_some, haddr]
    simp only [slab] at hupdate ⊢
    rw [hupdate]
    rfl
  · split <;> simp
  · simp only [hseek, Option.bind_eq_bind, Option.bind_some, haddr]

/-! # `alloc_item` -/

/-- Without an item in the slab `evict_any` finds none. -/
theorem Settled.evictAny_none (h : s.Settled g) (hi : i < g.count)
    (hnone : ∀ y, ¬ g.InSlab i y) (t : UInt32) : (s.slab i).evictAny k t = none := by
  have hseek : ∀ times index, Slab.seekArea (s.slab i).mng times index = none := by
    intro times
    induction times with
    | zero => exact fun _ => rfl
    | succ times ih =>
      intro index
      have htail : (s.slab i).mng.itemTail index = 0 :=
        (h.listed i hi).tail_eq_zero.mpr fun y hy => absurd hy (hnone y)
      unfold Slab.seekArea
      rw [if_pos htail, ih]
  unfold Slab.evictAny
  split
  · simp only [hseek, Option.bind_eq_bind, Option.bind_none]
  · rfl

/-- At the label `ALLOC_NEW`. -/
theorem Settled.tryNew (h : s.Settled g) (hi : i < g.count) (hk : k < TAIR_MAX_AREA_COUNT) :
    ((s.slab i).tryNew k = some (none, s.slab i) ∧ (s.slab i).Full ∧
      ∀ p ∈ g.owned i, g.free p = []) ∨
    ∃ x sl g', (s.slab i).tryNew k = some (some (x.addr, .new), sl) ∧ ¬ (s.slab i).Full ∧
      s.Fresh (s.setSlab i sl) g g' i x k := by
  unfold Slab.tryNew
  rcases h.allocNewItem hi hk with ⟨halloc, hfull⟩ | ⟨x, sl, g', halloc, htaken, hkept, hid, hcount,
    hbody⟩
  · rw [halloc]
    exact Or.inl ⟨rfl, Slab.full_of_allocNewItem halloc, hfull⟩
  · right
    have hroom : ¬ (s.slab i).Full := by
      intro hfull
      rw [Slab.allocNewItem_of_full hfull] at halloc
      exact absurd (congrArg Prod.fst (Option.some.inj halloc)) (by simp)
    have hfades := Slab.fades_allocNewItem halloc
    rw [halloc]
    refine ⟨x, _, g', rfl, hroom, htaken, ?_, hid, hbody, hfades, ⟨_, rfl⟩, ?_⟩
    · have hrecount := hkept.recount i
        (Function.update sl.mng.itemCount k (sl.mng.itemCount k + 1)) sl.mng.evictIndex
      simp only [setSlab_setSlab, slabs_setSlab_self, mem_setSlab] at hrecount
      exact hrecount
    · simp only [slabs_setSlab_self, hcount]

/-- A slab that is full and has a page has an item in use. -/
theorem Paged.exists_inSlab (hfull : ∀ p ∈ g.owned i, g.free p = [])
    (hp : (g.owned i).Nonempty) : ∃ y, g.InSlab i y := by
  obtain ⟨p, hp⟩ := hp
  refine ⟨(g.shape i).itemIdAt p 0, p, hp, ⟨0, (g.shape i).perSlab_pos, rfl⟩, ?_⟩
  rw [hfull p hp]
  exact List.not_mem_nil

/-- At the label `EVICT_ANY`. -/
theorem Settled.tryAny (h : s.Settled g) (hi : i < g.count) (hk : k < TAIR_MAX_AREA_COUNT)
    (t : UInt32) :
    ((s.slab i).tryAny k t = none ∧ ∀ y, ¬ g.InSlab i y) ∨
    ∃ x type sl, (s.slab i).tryAny k t = some (some (x.addr, type), sl) ∧ type ≠ .new ∧
      (s.slab i).anyVictim = some x.addr ∧ s.Evicted (s.setSlab i sl) g i x k := by
  rcases Classical.em (∃ y, g.InSlab i y) with ⟨y, hy⟩ | hnone
  · right
    obtain ⟨x, type, sl, hevict, htype, hx, hvictim, hkept, hcount, hbody, hself, hfades⟩ :=
      h.evictAny hi hk hy t
    have harea : (sl.mem.item x.addr).area = g.area x := by
      rw [← h.area_eq x (Ledger.inUse_of hi hx)]
      have hdata : (sl.mem.item x.addr).data = (s.mem.item x.addr).data :=
        (congrArg MdbItem.data hself :)
      unfold MdbItem.area
      rw [hdata]
    unfold Slab.tryAny
    rw [hevict]
    refine ⟨x, type, _, rfl, htype, hvictim, hx, ?_, hbody, hself, hfades, ⟨_, rfl⟩, ?_⟩
    · have hrecount := hkept.recount i
        (Function.update (Function.update sl.mng.itemCount (g.area x)
          (sl.mng.itemCount (g.area x) - 1)) k
          (Function.update sl.mng.itemCount (g.area x) (sl.mng.itemCount (g.area x) - 1) k + 1))
        sl.mng.evictIndex
      simp only [setSlab_setSlab, slabs_setSlab_self, mem_setSlab] at hrecount
      simp only [harea]
      exact hrecount
    · simp only [slabs_setSlab_self, harea, hcount]
  · left
    have hnone' : ∀ y, ¬ g.InSlab i y := fun y hy => hnone ⟨y, hy⟩
    unfold Slab.tryAny
    rw [h.evictAny_none hi hnone' t]
    exact ⟨rfl, hnone'⟩

/-- `evict_self`, and `evict_any` where it finds nothing. -/
theorem Settled.tryVictim (h : s.Settled g) (hi : i < g.count) (hk : k < TAIR_MAX_AREA_COUNT)
    (t : UInt32) :
    (Slab.orElse ((s.slab i).evictSelf k t) (fun s => s.tryAny k t) = none ∧
      ∀ y, ¬ g.InSlab i y) ∨
    ∃ x type sl, Slab.orElse ((s.slab i).evictSelf k t) (fun s => s.tryAny k t) =
        some (some (x.addr, type), sl) ∧ type ≠ .new ∧
      (s.slab i).victim k t = some x.addr ∧ s.Evicted (s.setSlab i sl) g i x k := by
  rcases h.evictSelf hi hk t with ⟨hself, hnone⟩ | ⟨x, type, sl, hself, htype, hevicted⟩
  · rw [hself, Slab.orElse]
    rcases h.tryAny hi hk t with ⟨hany, hempty⟩ | ⟨x, type, sl, hany, htype, hvictim, hevicted⟩
    · exact Or.inl ⟨hany, hempty⟩
    · refine Or.inr ⟨x, type, sl, hany, htype, ?_, hevicted⟩
      unfold Slab.victim
      rw [if_pos hnone, hvictim]
  · rw [hself]
    exact Or.inr ⟨x, type, sl, rfl, htype, hevicted⟩

/-- `alloc_item` hands out an item that was free, or one that another key had; in a slab
without a page it fails. -/
theorem Settled.slabAlloc (h : s.Settled g) (hi : i < g.count) (hk : k < TAIR_MAX_AREA_COUNT)
    (exceed : Bool) (t : UInt32) :
    (∃ x sl g', (s.slab i).allocItem k exceed t = some (some (x.addr, .new), sl) ∧
      ¬ (s.slab i).Ousts k exceed ∧ s.Fresh (s.setSlab i sl) g g' i x k) ∨
    (∃ x type sl, (s.slab i).allocItem k exceed t = some (some (x.addr, type), sl) ∧ type ≠ .new ∧
      (s.slab i).Ousts k exceed ∧ (s.slab i).victim k t = some x.addr ∧
      s.Evicted (s.setSlab i sl) g i x k) ∨
    ((s.slab i).allocItem k exceed t = none ∧ g.owned i = ∅) := by
  have hempty : (∀ p ∈ g.owned i, g.free p = []) → (∀ y, ¬ g.InSlab i y) → g.owned i = ∅ := by
    intro hfull hnone
    rcases Finset.eq_empty_or_nonempty (g.owned i) with hem | hne
    · exact hem
    · obtain ⟨y, hy⟩ := Paged.exists_inSlab hfull hne
      exact absurd hy (hnone y)
  unfold Slab.allocItem
  rw [if_pos hk]
  cases exceed with
  | true =>
    rw [if_pos rfl]
    rcases h.evictSelf hi hk t with ⟨hself, hnone⟩ | ⟨x, type, sl, hself, htype, hvictim, hevicted⟩
    · rw [hself, Slab.orElse]
      rcases h.tryNew hi hk with ⟨hnew, hfull, hlists⟩ | ⟨x, sl, g', hnew, hroom, hfresh⟩
      · rw [hnew, Slab.orElse]
        rcases h.tryAny hi hk t with ⟨hany, hem⟩ | ⟨x, type, sl, hany, htype, hvictim, hevicted⟩
        · exact Or.inr (Or.inr ⟨hany, hempty hlists hem⟩)
        · refine Or.inr (Or.inl ⟨x, type, sl, hany, htype, Or.inr hfull, ?_, hevicted⟩)
          unfold Slab.victim
          rw [if_pos hnone, hvictim]
      · rw [hnew]
        refine Or.inl ⟨x, sl, g', rfl, ?_, hfresh⟩
        rintro (⟨-, htail⟩ | hfull)
        · exact htail hnone
        · exact hroom hfull
    · rw [hself]
      refine Or.inr (Or.inl ⟨x, type, sl, rfl, htype, Or.inl ⟨rfl, ?_⟩, hvictim, hevicted⟩)
      intro htail
      unfold Slab.evictSelf at hself
      simp only [htail, if_pos] at hself
      exact absurd (congrArg Prod.fst (Option.some.inj hself)) (by simp)
  | false =>
    rw [if_neg Bool.false_ne_true]
    rcases h.tryNew hi hk with ⟨hnew, hfull, hlists⟩ | ⟨x, sl, g', hnew, hroom, hfresh⟩
    · rw [hnew, Slab.orElse]
      rcases h.tryVictim hi hk t with ⟨hvictim, hem⟩ | ⟨x, type, sl, hvictim, htype, hx, hevicted⟩
      · exact Or.inr (Or.inr ⟨hvictim, hempty hlists hem⟩)
      · exact Or.inr (Or.inl ⟨x, type, sl, hvictim, htype, Or.inr hfull, hx, hevicted⟩)
    · rw [hnew]
      refine Or.inl ⟨x, sl, g', rfl, ?_, hfresh⟩
      rintro (⟨hexceed, -⟩ | hfull)
      · exact Bool.false_ne_true hexceed
      · exact hroom hfull

end Store

end Mdb
