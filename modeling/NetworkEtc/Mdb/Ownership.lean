-- SUMMARY: Every item slot of a store in use is free or live, in the lists it belongs in and in no other.
import NetworkEtc.Mdb.StoreRun

/-!
# Item slots

What the lists that lie in the pool say: which pages a slab has, which items of a page are
free, which are in a hash chain, and which in the list of an area.
-/

namespace Mdb

open Library

namespace Store

/-- The page `p` is in one of the lists of pages of slab `i`. -/
def Owns (s : Store) (i p : Nat) : Prop :=
  ∃ k, OnList (fun p => pagePtr (s.mem.page p).next) (pagePtr ((s.slabs i).pageHead k)) p

/-- The item `x` is in the free list of the page `p`. -/
def InFreeList (s : Store) (p : Nat) (x : ItemId) : Prop :=
  OnList (freeNext s.mem) (s.mem.page p).freeHead.named x

/-- The item `x` is in the chain of the bucket `b`. -/
def InChain (s : Store) (b : Nat) (x : ItemId) : Prop := OnList s.chainNext (s.chainHead b) x

/-- The item `x` is in the list of area `k` in slab `i`. -/
def InItemList (s : Store) (i k : Nat) (x : ItemId) : Prop :=
  OnList (fun x => (s.mem.item x.addr).next.place) ((s.slabs i).itemHead k).place x

/-- The item `x` is in the hash table. -/
def Live (s : Store) (x : ItemId) : Prop := ∃ b, s.InChain b x

/-- The slab `i` has the item slot `x`. -/
def HasSlot (s : Store) (i : Nat) (x : ItemId) : Prop :=
  ∃ p, s.Owns i p ∧ (s.slabs i).IsPlace p x

/-- Every item slot is free or live, and in the lists it belongs in only. -/
structure Slotted (s : Store) : Prop where
  free_or_live : ∀ i < s.slabsCount, ∀ p, s.Owns i p → ∀ x, (s.slabs i).IsPlace p x →
    (s.InFreeList p x ∧ ¬ s.Live x) ∨ (¬ s.InFreeList p x ∧ s.Live x)
  slot : ∀ x, s.Live x → ∃ i < s.slabsCount, s.HasSlot i x
  chain : ∀ x, s.Live x → ∀ b, s.InChain b x ↔ b = s.getBucketIndex (s.keyOf x)
  list : ∀ x, s.Live x → ∀ i < s.slabsCount, ∀ k,
    s.InItemList i k x ↔ s.HasSlot i x ∧ k = keyArea (s.keyOf x)
  listed : ∀ i < s.slabsCount, ∀ k x, s.InItemList i k x → s.Live x
  keys : ∀ x y, s.Live x → s.Live y → s.keyOf x = s.keyOf y → x = y

variable {s : Store} {g : Ledger} {i k p : Nat} {x : ItemId}

namespace Settled

/-- The lists of pages hold the pages of the ledger. -/
theorem owns_iff (h : s.Settled g) (hi : i < g.count) : s.Owns i p ↔ p ∈ g.owned i := by
  obtain ⟨lists, hacc⟩ := (h.books i hi).accounted
  unfold Owns
  constructor
  · rintro ⟨k, hk⟩
    obtain ⟨tail, hlist⟩ := hacc.linked k
    exact ((hacc.mem_iff k p).mp (hlist.forth.onList_iff.mp hk)).1
  · intro hp
    obtain ⟨tail, hlist⟩ := hacc.linked ((s.slabs i).shelfOf (s.mem.page p).freeNr)
    exact ⟨_, hlist.forth.onList_iff.mpr ((hacc.mem_iff _ p).mpr ⟨hp, rfl⟩)⟩

theorem inFreeList_iff (h : s.Settled g) (hi : i < g.count) (hp : p ∈ g.owned i) :
    s.InFreeList p x ↔ x ∈ g.free p :=
  (h.stock hi hp).chain.onList_iff

theorem inChain_iff (h : s.Settled g) {b : Nat} :
    s.InChain b x ↔ g.InUse x ∧ s.getBucketIndex (s.keyOf x) = b := by
  obtain ⟨l, hseg, -, hmem⟩ := h.chained b
  exact hseg.onList_iff.trans (hmem x)

theorem live_iff (h : s.Settled g) : s.Live x ↔ g.InUse x := by
  unfold Live
  simp only [h.inChain_iff]
  constructor
  · rintro ⟨b, hx, -⟩
    exact hx
  · exact fun hx => ⟨_, hx, rfl⟩

theorem inItemList_iff (h : s.Settled g) (hi : i < g.count) :
    s.InItemList i k x ↔ g.InSlab i x ∧ g.area x = k := by
  obtain ⟨l, hlist, hmem⟩ := h.listed i hi k
  exact hlist.forth.onList_iff.trans (hmem x)

/-- An item in use is in the slab that has its slot. -/
theorem hasSlot_iff (h : s.Settled g) (hi : i < g.count) (hx : g.InUse x) :
    s.HasSlot i x ↔ g.InSlab i x := by
  unfold HasSlot
  simp only [h.owns_iff hi, h.shape_eq i hi]
  constructor
  · rintro ⟨p, hp, hplace⟩
    obtain ⟨j, hj, q, hq, hplace', hfree⟩ := hx
    have hpq : p = q := by
      rw [← hplace.page (h.page_lt hi hp), hplace'.page (h.page_lt hj hq)]
    exact ⟨p, hp, hplace, hpq ▸ hfree⟩
  · rintro ⟨p, hp, hplace, -⟩
    exact ⟨p, hp, hplace⟩

/-- The area of an item in use is that of its key. -/
theorem area_keyOf (h : s.Settled g) (hx : g.InUse x) : g.area x = keyArea (s.keyOf x) := by
  rw [← h.area_eq x hx, area_eq_keyArea (h.whole x hx)]
  rfl

theorem slotted (h : s.Settled g) : s.Slotted := by
  refine ⟨fun i hi p hp x hplace => ?_, fun x hx => ?_, fun x hx b => ?_, fun x hx i hi k => ?_,
    fun i hi k x hx => ?_, fun x y hx hy heq => ?_⟩
  · rw [h.count_eq] at hi
    rw [h.owns_iff hi] at hp
    rw [h.shape_eq i hi] at hplace
    rw [h.inFreeList_iff hi hp, h.live_iff]
    rcases Classical.em (x ∈ g.free p) with hfree | hfree
    · refine Or.inl ⟨hfree, fun hx => ?_⟩
      exact h.free_apart hi hp hfree hx rfl
    · exact Or.inr ⟨hfree, i, hi, p, hp, hplace, hfree⟩
  · obtain ⟨i, hi, hxi⟩ := h.live_iff.mp hx
    exact ⟨i, h.count_eq ▸ hi, (h.hasSlot_iff hi (h.live_iff.mp hx)).mpr hxi⟩
  · rw [h.live_iff] at hx
    rw [h.inChain_iff]
    constructor
    · rintro ⟨-, rfl⟩
      rfl
    · rintro rfl
      exact ⟨hx, rfl⟩
  · rw [h.live_iff] at hx
    rw [h.count_eq] at hi
    rw [h.inItemList_iff hi, h.hasSlot_iff hi hx, h.area_keyOf hx, eq_comm (a := k)]
  · rw [h.count_eq] at hi
    rw [h.inItemList_iff hi] at hx
    exact h.live_iff.mpr (Ledger.inUse_of hi hx.1)
  · exact h.keys x y (h.live_iff.mp hx) (h.live_iff.mp hy) heq

end Settled

end Store

end Mdb
