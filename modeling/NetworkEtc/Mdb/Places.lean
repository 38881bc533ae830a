-- SUMMARY: The places of a slab's pages, their ids and addresses, and a page as init_page leaves it.
import NetworkEtc.Library.Links
import NetworkEtc.Mdb.SlabManager

/-!
# Places

A page of a slab has `perSlab` places for items. The id of a place determines its
address, and different places have different addresses, so that a write to one item
leaves the others alone.
-/

namespace Mdb

/-- The item an id names, flags and all. -/
def ItemId.named (id : ItemId) : Option ItemId := if id = 0 then none else some id

@[simp] theorem ItemId.named_zero : ItemId.named 0 = none := rfl

theorem ItemId.named_of_ne {id : ItemId} (h : id ≠ 0) : id.named = some id := if_neg h

theorem ItemId.named_eq_some {id x : ItemId} : id.named = some x ↔ id ≠ 0 ∧ id = x := by
  unfold ItemId.named
  split <;> simp_all

theorem ItemId.named_eq_none {id : ItemId} : id.named = none ↔ id = 0 := by
  unfold ItemId.named
  split <;> simp_all

namespace SlabShape

variable {g : SlabShape} {p q i j : Nat} {x y : ItemId}

/-- `x` is a place of the page `p`. -/
def IsPlace (g : SlabShape) (p : Nat) (x : ItemId) : Prop := ∃ i < g.perSlab, x = g.itemIdAt p i

theorem slabSize_pos (g : SlabShape) : 0 < g.slabSize :=
  Nat.lt_of_lt_of_le (by decide) g.header_le

theorem perSlab_pos (g : SlabShape) : 0 < g.perSlab :=
  Nat.div_pos g.slabSize_le g.slabSize_pos

theorem perSlab_lt (g : SlabShape) : g.perSlab < MAX_PAGES_NO := by
  unfold perSlab
  calc pageArea / g.slabSize ≤ pageArea / itemHeaderSize :=
        Nat.div_le_div_left g.header_le (by decide)
    _ < MAX_PAGES_NO := by decide

theorem slabSize_lt (g : SlabShape) : g.slabSize < 2 ^ 20 :=
  Nat.lt_of_le_of_lt g.slabSize_le (by decide)

@[simp] theorem toNat_slabSize : (g.itemIdAt p i).slabSize.toNat = g.slabSize := by
  simp only [itemIdAt, ItemId.make, BitVec.toNat_ofNat]
  exact Nat.mod_eq_of_lt g.slabSize_lt

@[simp] theorem toNat_slabId : (g.itemIdAt p i).slabId.toNat = g.slabId := by
  simp only [itemIdAt, ItemId.make, BitVec.toNat_ofNat]
  exact Nat.mod_eq_of_lt (Nat.lt_trans g.slabId_lt (by decide))

theorem toNat_pageId (hp : p < MAX_PAGES_NO) : (g.itemIdAt p i).pageId.toNat = p := by
  simp only [itemIdAt, ItemId.make, BitVec.toNat_ofNat]
  exact Nat.mod_eq_of_lt hp

theorem toNat_offset (hi : i ≤ g.perSlab) : (g.itemIdAt p i).offset.toNat = i := by
  simp only [itemIdAt, ItemId.make, BitVec.toNat_ofNat]
  exact Nat.mod_eq_of_lt (Nat.lt_of_le_of_lt hi g.perSlab_lt)

@[simp] theorem clearFlags_itemIdAt : (g.itemIdAt p i).clearFlags = g.itemIdAt p i := rfl

theorem itemIdAt_ne_zero : g.itemIdAt p i ≠ 0 := by
  intro h
  have hsize : (g.itemIdAt p i).slabSize.toNat = 0 := by
    rw [h]
    rfl
  rw [toNat_slabSize] at hsize
  exact g.slabSize_pos.ne' hsize

theorem addr_itemIdAt (hp : p < MAX_PAGES_NO) (hi : i ≤ g.perSlab) :
    (g.itemIdAt p i).addr = (p, g.slabSize * i) := by
  simp only [ItemId.addr, toNat_slabSize, toNat_pageId hp, toNat_offset hi]

theorem itemIdAt_inj (hi : i ≤ g.perSlab) (hj : j ≤ g.perSlab)
    (h : g.itemIdAt p i = g.itemIdAt p j) : i = j := by
  rw [← toNat_offset (p := p) hi, h, toNat_offset hj]

namespace IsPlace

theorem ne_zero (h : g.IsPlace p x) : x ≠ 0 := by
  obtain ⟨i, -, rfl⟩ := h
  exact itemIdAt_ne_zero

theorem clearFlags (h : g.IsPlace p x) : x.clearFlags = x := by
  obtain ⟨i, -, rfl⟩ := h
  rfl

theorem named (h : g.IsPlace p x) : x.named = some x := ItemId.named_of_ne h.ne_zero

theorem page (h : g.IsPlace p x) (hp : p < MAX_PAGES_NO) : x.pageId.toNat = p := by
  obtain ⟨i, -, rfl⟩ := h
  exact toNat_pageId hp

theorem addr_fst (h : g.IsPlace p x) (hp : p < MAX_PAGES_NO) : x.addr.1 = p := h.page hp

theorem slab (h : g.IsPlace p x) : x.slabId.toNat = g.slabId := by
  obtain ⟨i, -, rfl⟩ := h
  exact toNat_slabId

theorem size (h : g.IsPlace p x) : x.slabSize.toNat = g.slabSize := by
  obtain ⟨i, -, rfl⟩ := h
  exact toNat_slabSize

/-- Places with one address are one place. -/
theorem eq_of_addr (hx : g.IsPlace p x) (hy : g.IsPlace q y) (hp : p < MAX_PAGES_NO)
    (hq : q < MAX_PAGES_NO) (h : x.addr = y.addr) : x = y := by
  obtain ⟨i, hi, rfl⟩ := hx
  obtain ⟨j, hj, rfl⟩ := hy
  rw [addr_itemIdAt hp hi.le, addr_itemIdAt hq hj.le, Prod.mk.injEq] at h
  obtain ⟨rfl, hoff⟩ := h
  obtain rfl := Nat.eq_of_mul_eq_mul_left g.slabSize_pos hoff
  rfl

end IsPlace

/-- The places of a page, in order. -/
def places (g : SlabShape) (p : Nat) : List ItemId := (List.range g.perSlab).map (g.itemIdAt p)

theorem mem_places : x ∈ g.places p ↔ g.IsPlace p x := by
  simp only [places, List.mem_map, List.mem_range, IsPlace]
  constructor
  · rintro ⟨i, hi, rfl⟩
    exact ⟨i, hi, rfl⟩
  · rintro ⟨i, hi, rfl⟩
    exact ⟨i, hi, rfl⟩

@[simp] theorem length_places : (g.places p).length = g.perSlab := by simp [places]

theorem nodup_places : (g.places p).Nodup := by
  apply List.Nodup.map_on _ List.nodup_range
  intro i hi j hj h
  exact itemIdAt_inj (List.mem_range.mp hi).le (List.mem_range.mp hj).le h

/-- A list of places of one page, none twice, is at most as long as the page has. -/
theorem length_le_perSlab {l : List ItemId} (hnodup : l.Nodup) (h : ∀ x ∈ l, g.IsPlace p x) :
    l.length ≤ g.perSlab := by
  rw [← length_places (g := g) (p := p)]
  exact (hnodup.subperm fun x hx => mem_places.mpr (h x hx)).length_le

/-- A list as long as that has every place. -/
theorem mem_of_length_eq {l : List ItemId} (hnodup : l.Nodup) (h : ∀ x ∈ l, g.IsPlace p x)
    (hlen : l.length = g.perSlab) (hx : g.IsPlace p x) : x ∈ l := by
  have hperm : l.Perm (g.places p) :=
    (hnodup.subperm fun x hx => mem_places.mpr (h x hx)).perm_of_length_le (by simp [hlen])
  exact hperm.mem_iff.mpr (mem_places.mpr hx)

/-! # `init_page` -/

theorem initItems_ne {item : Addr → MdbItem} {a : Addr} {n : Nat}
    (h : ∀ i < n, a ≠ (p, g.slabSize * i)) : g.initItems p item n a = item a := by
  induction n with
  | zero => rfl
  | succ n ih =>
    simp only [initItems]
    rw [Function.update_of_ne (h n (Nat.lt_succ_self n))]
    exact ih fun i hi => h i (Nat.lt_succ_of_lt hi)

theorem initItems_at {item : Addr → MdbItem} {n : Nat} (hi : i < n) :
    g.initItems p item n (p, g.slabSize * i) =
      { item (p, g.slabSize * i) with
        next := 0
        prev := 0
        itemId := g.itemIdAt p i
        hNext := g.itemIdAt p (i + 1) } := by
  induction n with
  | zero => exact absurd hi (Nat.not_lt_zero i)
  | succ n ih =>
    simp only [initItems]
    rcases Nat.lt_succ_iff_lt_or_eq.mp hi with hlt | rfl
    · rw [Function.update_of_ne, ih hlt]
      intro heq
      rw [Prod.mk.injEq] at heq
      exact hlt.ne (Nat.eq_of_mul_eq_mul_left g.slabSize_pos heq.2)
    · rw [Function.update_self, initItems_ne]
      intro j hj heq
      rw [Prod.mk.injEq] at heq
      exact hj.ne' (Nat.eq_of_mul_eq_mul_left g.slabSize_pos heq.2)

variable {mem : Memory}

@[simp] theorem pool_initPage : (g.initPage mem p).pool = mem.pool := rfl

@[simp] theorem page_initPage_self : (g.initPage mem p).page p =
    { id := p, freeNr := g.perSlab, next := 0, prev := 0, freeHead := g.itemIdAt p 0 } := by
  simp [initPage]

theorem page_initPage_ne (h : q ≠ p) : (g.initPage mem p).page q = mem.page q := by
  simp [initPage, h]

theorem item_initPage_ne {a : Addr} (h : a.1 ≠ p) : (g.initPage mem p).item a = mem.item a := by
  simp only [initPage]
  rw [Function.update_of_ne (by rintro rfl; exact h rfl), initItems_ne, if_neg h]
  rintro i - rfl
  exact h rfl

/-- A place of a new page. -/
theorem item_initPage (hi : i < g.perSlab) : (g.initPage mem p).item (p, g.slabSize * i) =
    { MdbItem.zeroed with
      itemId := g.itemIdAt p i
      hNext := if i + 1 = g.perSlab then 0 else g.itemIdAt p (i + 1) } := by
  simp only [initPage]
  rcases eq_or_ne i (g.perSlab - 1) with rfl | hne
  · rw [Function.update_self, initItems_at hi]
    have hlast : g.perSlab - 1 + 1 = g.perSlab := Nat.sub_add_cancel g.perSlab_pos
    simp [hlast, MdbItem.zeroed]
  · rw [Function.update_of_ne, initItems_at hi]
    · have hnot : i + 1 ≠ g.perSlab := by omega
      simp [hnot, MdbItem.zeroed]
    · intro heq
      rw [Prod.mk.injEq] at heq
      exact hne (Nat.eq_of_mul_eq_mul_left g.slabSize_pos heq.2)

theorem links_initItems {item : Addr → MdbItem} {a : Addr} (n : Nat) (hprev : (item a).prev = 0)
    (hnext : (item a).next = 0) :
    (g.initItems p item n a).prev = 0 ∧ (g.initItems p item n a).next = 0 := by
  induction n with
  | zero => exact ⟨hprev, hnext⟩
  | succ n ih =>
    simp only [initItems, Function.update_apply]
    split
    · exact ⟨rfl, rfl⟩
    · exact ih

/-- Nothing on a new page is in a list of items. -/
theorem links_initPage {a : Addr} (ha : a.1 = p) :
    ((g.initPage mem p).item a).prev = 0 ∧ ((g.initPage mem p).item a).next = 0 := by
  have hitems : ∀ b : Addr, b.1 = p →
      (g.initItems p (fun b => if b.1 = p then MdbItem.zeroed else mem.item b) g.perSlab b).prev =
        0 ∧
      (g.initItems p (fun b => if b.1 = p then MdbItem.zeroed else mem.item b) g.perSlab b).next =
        0 := by
    intro b hb
    apply links_initItems <;> rw [if_pos hb] <;> rfl
  simp only [initPage, Function.update_apply]
  split
  · exact hitems _ rfl
  · exact hitems a ha

theorem outside_initPage {S : Finset Nat} (hp : p ∈ S) : mem.Outside S (g.initPage mem p) := by
  refine ⟨fun q hq => page_initPage_ne ?_, fun a ha => item_initPage_ne ?_⟩
  · rintro rfl
    exact hq hp
  · rintro rfl
    exact ha hp

variable (mem) in
/-- The free list of a new page: its places in order. -/
theorem seg_initPage (hp : p < MAX_PAGES_NO) {n : Nat} (hn : n ≤ g.perSlab) :
    Library.Seg (fun x : ItemId => ((g.initPage mem p).item x.addr).hNext.named)
      (if g.perSlab - n = g.perSlab then none else some (g.itemIdAt p (g.perSlab - n)))
      ((List.range' (g.perSlab - n) n).map (g.itemIdAt p)) none := by
  induction n with
  | zero => simp
  | succ n ih =>
    have hlt : g.perSlab - (n + 1) < g.perSlab := by omega
    have hnext : g.perSlab - (n + 1) + 1 = g.perSlab - n := by omega
    rw [List.range'_succ, List.map_cons, if_neg hlt.ne]
    refine ⟨rfl, ?_⟩
    beta_reduce
    rw [addr_itemIdAt hp hlt.le, item_initPage hlt, hnext]
    have hrest := ih (by omega)
    rcases eq_or_ne (g.perSlab - n) g.perSlab with heq | hne
    · simpa [heq] using hrest
    · simpa [hne, ItemId.named_of_ne itemIdAt_ne_zero] using hrest

theorem seg_places (hp : p < MAX_PAGES_NO) :
    Library.Seg (fun x : ItemId => ((g.initPage mem p).item x.addr).hNext.named)
      (g.itemIdAt p 0).named (g.places p) none := by
  have h := seg_initPage mem (g := g) hp le_rfl
  have hpos := g.perSlab_pos
  rw [Nat.sub_self, if_neg hpos.ne, ← List.range_eq_range'] at h
  rwa [ItemId.named_of_ne itemIdAt_ne_zero]

end SlabShape

end Mdb
