-- SUMMARY: The lists of items in use, one for each area: linking, unlinking, and what they leave alone.
import NetworkEtc.Mdb.Stock

/-!
# The lists of items

A slab keeps the items in use in a doubly linked list for each area, the latest in
front. An item is known by its place; the ids that the links hold may carry flags that
the item has lost since, or lack those it has got.
-/

namespace Mdb

open Library

/-- `mng'` differs from `mng` in what it keeps about items only. -/
def SlabManager.SamePages (mng mng' : SlabManager) : Prop :=
  mng' =
    { mng with
      itemHead := mng'.itemHead
      itemTail := mng'.itemTail
      itemCount := mng'.itemCount
      evictIndex := mng'.evictIndex }

theorem SlabManager.SamePages.refl {mng : SlabManager} : mng.SamePages mng := rfl

theorem SlabManager.SamePages.trans {mng mng' mng'' : SlabManager} (h : mng.SamePages mng')
    (h' : mng'.SamePages mng'') : mng.SamePages mng'' := by
  unfold SlabManager.SamePages at *
  rw [h', h]

theorem SlabManager.SamePages.shape_eq {mng mng' : SlabManager} (h : mng.SamePages mng') :
    mng'.toSlabShape = mng.toSlabShape := by
  rw [h]

theorem Filed.samePages {mng mng' : SlabManager} {mem : Memory} {P : Finset Nat} {hand : Int}
    (h : Filed mng mem P hand) (hsame : mng.SamePages mng') : Filed mng' mem P hand := by
  rw [hsame]
  exact ⟨h.shelves, h.full_eq, h.free_eq, h.partial_eq, h.marks⟩

/-- `A` holds places of the memory, no two at one address. -/
structure Placed (mem : Memory) (A : ItemId → Prop) : Prop where
  apart : ∀ x y, A x → A y → x.addr = y.addr → x = y
  item_id : ∀ x, A x → (mem.item x.addr).itemId.clearFlags = x
  ne_zero : ∀ x, A x → x ≠ 0

namespace Placed

variable {mem mem' : Memory} {A : ItemId → Prop} {x y : ItemId}

theorem id_ne_zero (h : Placed mem A) (hx : A x) : (mem.item x.addr).itemId ≠ 0 := by
  apply ItemId.ne_zero_of_clearFlags
  rw [h.item_id x hx]
  exact h.ne_zero x hx

theorem place_id (h : Placed mem A) (hx : A x) : (mem.item x.addr).itemId.place = some x :=
  ItemId.place_eq_some.mpr ⟨h.id_ne_zero hx, h.item_id x hx⟩

theorem clearFlags_eq (h : Placed mem A) (hx : A x) : x.clearFlags = x := by
  rw [← h.item_id x hx, ItemId.clearFlags_clearFlags]

/-- An id that stands for a place in `A` is the one at that place. -/
theorem addr_eq_iff (h : Placed mem A) {id : ItemId} (hx : A x) (hid : id ≠ 0 → A id.clearFlags) :
    id ≠ 0 ∧ x.addr = id.addr ↔ id.place = some x := by
  rw [ItemId.place_eq_some]
  constructor
  · rintro ⟨h0, haddr⟩
    refine ⟨h0, (h.apart x _ hx (hid h0) ?_).symm⟩
    rwa [ItemId.addr_clearFlags]
  · rintro ⟨h0, rfl⟩
    exact ⟨h0, rfl⟩

theorem congr (h : Placed mem A)
    (hid : ∀ x, A x → (mem'.item x.addr).itemId.clearFlags = (mem.item x.addr).itemId.clearFlags) :
    Placed mem' A :=
  ⟨h.apart, fun x hx => (hid x hx).trans (h.item_id x hx), h.ne_zero⟩

end Placed

/-! # `link_item` and `unlink_item` -/

/-- A write through an id that may be `0`. -/
theorem item_writePtr (mem : Memory) (id : ItemId) (f : MdbItem → MdbItem) (b : Addr) :
    (if id = 0 then mem else mem.setItem id.addr f).item b =
      if id ≠ 0 ∧ b = id.addr then f (mem.item b) else mem.item b := by
  split
  · next h0 => rw [if_neg fun hand => hand.1 h0]
  · next h0 =>
    rw [Memory.item_setItem]
    split
    · next heq => rw [if_pos ⟨h0, heq⟩, heq]
    · next hne => rw [if_neg fun hand => hne hand.2]

theorem itemsRelinked_writePtr {mem : Memory} {id : ItemId} {f : MdbItem → MdbItem}
    (hf : ∀ it, f it = { it with prev := (f it).prev, next := (f it).next }) :
    mem.ItemsRelinked (if id = 0 then mem else mem.setItem id.addr f) := by
  split
  · exact Memory.ItemsRelinked.refl
  · exact Memory.ItemsRelinked.setItem (hf _)

section

variable {s : Slab} {a : Addr} {area : Nat}

theorem linkItem_spec (hid : (s.mem.item a).itemId ≠ 0) (harea : area < TAIR_MAX_AREA_COUNT) :
    ∃ s', s.linkItem a area = some s' ∧ s.mem.ItemsRelinked s'.mem ∧
      (∀ b, (s'.mem.item b).next =
        if b = a then s.mng.itemHead area else (s.mem.item b).next) ∧
      (∀ b, (s'.mem.item b).prev =
        if s.mng.itemHead area ≠ 0 ∧ b = (s.mng.itemHead area).addr then (s.mem.item a).itemId
        else if b = a then 0 else (s.mem.item b).prev) ∧
      s'.mng =
        { s.mng with
          itemHead := Function.update s.mng.itemHead area (s.mem.item a).itemId
          itemTail := Function.update s.mng.itemTail area
            (if s.mng.itemTail area = 0 then (s.mem.item a).itemId else s.mng.itemTail area) } := by
  unfold Slab.linkItem
  simp only
  rw [if_pos ⟨hid, harea⟩]
  have hfirst : s.mem.ItemsRelinked
      (s.mem.setItem a fun it => { it with next := s.mng.itemHead area, prev := 0 }) :=
    Memory.ItemsRelinked.setItem rfl
  refine ⟨_, rfl, hfirst.trans (itemsRelinked_writePtr fun it => rfl), fun b => ?_, fun b => ?_,
    rfl⟩
  · simp only [item_writePtr]
    rw [Memory.item_setItem]
    split_ifs <;> simp_all
  · simp only [item_writePtr]
    rw [Memory.item_setItem]
    split_ifs <;> simp_all

theorem unlinkItem_spec (hid : (s.mem.item a).itemId ≠ 0)
    (harea : (s.mem.item a).area < TAIR_MAX_AREA_COUNT) :
    ∃ s', s.unlinkItem a = some s' ∧ s.mem.ItemsRelinked s'.mem ∧
      (∀ b, (s'.mem.item b).next =
        if (s.mem.item a).prev ≠ 0 ∧ b = (s.mem.item a).prev.addr then (s.mem.item a).next
        else (s.mem.item b).next) ∧
      (∀ b, (s'.mem.item b).prev =
        if (s.mem.item a).next ≠ 0 ∧ b = (s.mem.item a).next.addr then (s.mem.item a).prev
        else (s.mem.item b).prev) ∧
      s'.mng =
        { s.mng with
          itemHead := Function.update s.mng.itemHead (s.mem.item a).area
            (if (s.mem.item a).itemId.itemidEqual (s.mng.itemHead (s.mem.item a).area) then
              (s.mem.item a).next else s.mng.itemHead (s.mem.item a).area)
          itemTail := Function.update s.mng.itemTail (s.mem.item a).area
            (if (s.mem.item a).itemId.itemidEqual (s.mng.itemTail (s.mem.item a).area) then
              (s.mem.item a).prev else s.mng.itemTail (s.mem.item a).area) } := by
  unfold Slab.unlinkItem
  simp only
  rw [if_pos ⟨hid, harea⟩]
  refine ⟨_, rfl, Memory.ItemsRelinked.trans (itemsRelinked_writePtr fun it => rfl)
    (itemsRelinked_writePtr fun it => rfl), fun b => ?_, fun b => ?_, rfl⟩
  · simp only [item_writePtr]
    split_ifs <;> rfl
  · simp only [item_writePtr]
    split_ifs <;> rfl

theorem samePages_linkItem {s' : Slab} (h : s.linkItem a area = some s') :
    s.mng.SamePages s'.mng := by
  unfold Slab.linkItem at h
  simp only at h
  split at h
  · cases h
    rfl
  · exact absurd h (by simp)

theorem samePages_unlinkItem {s' : Slab} (h : s.unlinkItem a = some s') :
    s.mng.SamePages s'.mng := by
  unfold Slab.unlinkItem at h
  simp only at h
  split at h
  · cases h
    rfl
  · exact absurd h (by simp)

end

/-! # The lists -/

/-- The items `L` in the lists of their areas. -/
def Listed (s : Slab) (area : ItemId → Nat) (L : ItemId → Prop) : Prop :=
  Shelved (fun x => (s.mem.item x.addr).next.place) (fun x => (s.mem.item x.addr).prev.place)
    (fun k => (s.mng.itemHead k).place) (fun k => (s.mng.itemTail k).place) area L

namespace Listed

variable {s s' : Slab} {area area' : ItemId → Nat} {L M A : ItemId → Prop} {x : ItemId} {k : Nat}

theorem congr (h : Listed s area L)
    (hnext : ∀ y, L y → (s'.mem.item y.addr).next = (s.mem.item y.addr).next)
    (hprev : ∀ y, L y → (s'.mem.item y.addr).prev = (s.mem.item y.addr).prev)
    (harea : ∀ y, L y → area' y = area y) (hhead : s'.mng.itemHead = s.mng.itemHead)
    (htail : s'.mng.itemTail = s.mng.itemTail) (hL : ∀ y, M y ↔ L y) : Listed s' area' M := by
  refine Shelved.congr h (fun y hy => ?_) (fun y hy => ?_) harea (fun k => ?_) (fun k => ?_) hL
  · rw [hnext y hy]
  · rw [hprev y hy]
  · rw [hhead]
  · rw [htail]

theorem head_place (h : Listed s area L) (hk : s.mng.itemHead k ≠ 0) :
    L (s.mng.itemHead k).clearFlags ∧ area (s.mng.itemHead k).clearFlags = k :=
  h.head_mem (ItemId.place_eq_some.mpr ⟨hk, rfl⟩)

theorem tail_place (h : Listed s area L) (hk : s.mng.itemTail k ≠ 0) :
    L (s.mng.itemTail k).clearFlags ∧ area (s.mng.itemTail k).clearFlags = k :=
  h.tail_mem (ItemId.place_eq_some.mpr ⟨hk, rfl⟩)

theorem next_place (h : Listed s area L) (hx : L x) (hn : (s.mem.item x.addr).next ≠ 0) :
    L (s.mem.item x.addr).next.clearFlags ∧
      (s.mem.item x.addr).next.clearFlags ≠ x := by
  obtain ⟨hL, -, hne⟩ := h.next_mem hx (ItemId.place_eq_some.mpr ⟨hn, rfl⟩)
  exact ⟨hL, hne⟩

theorem prev_place (h : Listed s area L) (hx : L x) (hn : (s.mem.item x.addr).prev ≠ 0) :
    L (s.mem.item x.addr).prev.clearFlags ∧
      (s.mem.item x.addr).prev.clearFlags ≠ x := by
  obtain ⟨hL, -, hne⟩ := h.prev_mem hx (ItemId.place_eq_some.mpr ⟨hn, rfl⟩)
  exact ⟨hL, hne⟩

/-- An area has an item unless its list is empty. -/
theorem tail_eq_zero (h : Listed s area L) : s.mng.itemTail k = 0 ↔ ∀ y, L y → area y ≠ k := by
  rw [← ItemId.place_eq_none]
  exact h.tail_eq_none

/-- The test of `keep_area_quota` for an empty list. -/
theorem ends_eq_zero (h : Listed s area L) (hk : s.mng.itemHead k = 0 ∨ s.mng.itemTail k = 0) :
    ∀ y, L y → area y ≠ k := by
  rcases hk with hk | hk
  · exact h.head_eq_none.mp (ItemId.place_eq_none.mpr hk)
  · exact h.tail_eq_zero.mp hk

variable (hA : Placed s.mem A) (hLA : ∀ y, L y → A y)
include hA hLA

/-- An item joins the list of the area `k`. -/
theorem linkItem (h : Listed s area L) (hx : A x) (hxL : ¬ L x) (hk : k < TAIR_MAX_AREA_COUNT) :
    ∃ s', s.linkItem x.addr k = some s' ∧ s.mem.ItemsRelinked s'.mem ∧
      s.mng.SamePages s'.mng ∧ s'.mng.itemCount = s.mng.itemCount ∧
      (∀ y, A y → y ≠ x → ¬ L y → s'.mem.item y.addr = s.mem.item y.addr) ∧
      (∀ b, (∀ y, A y → b ≠ y.addr) → s'.mem.item b = s.mem.item b) ∧
      Listed s' (Function.update area x k) (fun y => y = x ∨ L y) := by
  obtain ⟨s', hlink, hrel, hnext, hprev, hmng⟩ := linkItem_spec (hA.id_ne_zero hx) hk
  have hhead : s.mng.itemHead k ≠ 0 → A (s.mng.itemHead k).clearFlags :=
    fun h0 => hLA _ (h.head_place h0).1
  have haddr : ∀ y, A y → (s.mng.itemHead k ≠ 0 ∧ y.addr = (s.mng.itemHead k).addr ↔
      (s.mng.itemHead k).place = some y) := fun y hy => hA.addr_eq_iff hy hhead
  have hne : ∀ y, A y → y ≠ x → y.addr ≠ x.addr :=
    fun y hy hyx heq => hyx (hA.apart y x hy hx heq)
  have hhead_ne : ∀ y, A y → ¬ L y →
      ¬ (s.mng.itemHead k ≠ 0 ∧ y.addr = (s.mng.itemHead k).addr) := by
    intro y hy hyL hand
    exact hyL (h.head_mem ((haddr y hy).mp hand)).1
  refine ⟨s', hlink, hrel, samePages_linkItem hlink, by rw [hmng], fun y hy hyx hyL => ?_,
    fun b hb => ?_, ?_⟩
  · rw [hrel.item_eq, hnext, hprev, if_neg (hne y hy hyx), if_neg (hhead_ne y hy hyL),
      if_neg (hne y hy hyx)]
  · have hb' : ¬ (s.mng.itemHead k ≠ 0 ∧ b = (s.mng.itemHead k).addr) := by
      rintro ⟨h0, heq⟩
      exact hb _ (hhead h0) (by rw [ItemId.addr_clearFlags]; exact heq)
    rw [hrel.item_eq, hnext, hprev, if_neg (hb x hx), if_neg hb', if_neg (hb x hx)]
  · apply Shelved.push h hxL
    · intro y hy
      exact Function.update_of_ne (by rintro rfl; exact hxL hy) ..
    · simp only [hnext, if_true, Function.update_self]
    · simp only [hprev, if_neg (hhead_ne x hx hxL), if_true, ItemId.place_zero]
    · intro y hy
      have hyx : y ≠ x := by rintro rfl; exact hxL hy
      simp only [hnext, if_neg (hne y (hLA y hy) hyx)]
    · intro y hy
      have hyx : y ≠ x := by rintro rfl; exact hxL hy
      simp only [hprev, Function.update_self, haddr y (hLA y hy), if_neg (hne y (hLA y hy) hyx)]
      split
      · exact hA.place_id hx
      · rfl
    · intro j
      simp only [hmng, Function.update_self, Function.update_apply]
      split
      · exact hA.place_id hx
      · rfl
    · intro j
      simp only [hmng, Function.update_self, Function.update_apply]
      split
      · next hj =>
        subst hj
        split
        · next h0 => rw [h0, ItemId.place_zero, Option.none_or, hA.place_id hx]
        · next h0 =>
          rw [Option.or_of_isSome]
          rw [Option.isSome_iff_ne_none, Ne, ItemId.place_eq_none]
          exact h0
      · rfl

/-- An item leaves the list of its area. -/
theorem unlinkItem (h : Listed s area L) (hx : L x) (hk : (s.mem.item x.addr).area = area x)
    (harea : area x < TAIR_MAX_AREA_COUNT) :
    ∃ s', s.unlinkItem x.addr = some s' ∧ s.mem.ItemsRelinked s'.mem ∧
      s.mng.SamePages s'.mng ∧ s'.mng.itemCount = s.mng.itemCount ∧
      (∀ y, A y → ¬ L y → s'.mem.item y.addr = s.mem.item y.addr) ∧
      (∀ b, (∀ y, A y → b ≠ y.addr) → s'.mem.item b = s.mem.item b) ∧
      Listed s' area (fun y => L y ∧ y ≠ x) := by
  obtain ⟨s', hunlink, hrel, hnext, hprev, hmng⟩ :=
    unlinkItem_spec (hA.id_ne_zero (hLA x hx)) (hk ▸ harea)
  have hn : (s.mem.item x.addr).next ≠ 0 → A (s.mem.item x.addr).next.clearFlags :=
    fun h0 => hLA _ (h.next_place hx h0).1
  have hp : (s.mem.item x.addr).prev ≠ 0 → A (s.mem.item x.addr).prev.clearFlags :=
    fun h0 => hLA _ (h.prev_place hx h0).1
  have hn_addr := fun y hy => hA.addr_eq_iff (x := y) hy hn
  have hp_addr := fun y hy => hA.addr_eq_iff (x := y) hy hp
  refine ⟨s', hunlink, hrel, samePages_unlinkItem hunlink, by rw [hmng], fun y hy hyL => ?_,
    fun b hb => ?_, ?_⟩
  · rw [hrel.item_eq, hnext, hprev, if_neg, if_neg]
    · intro hand
      exact hyL (h.prev_mem hx ((hp_addr y hy).mp hand)).1
    · intro hand
      exact hyL (h.next_mem hx ((hn_addr y hy).mp hand)).1
  · rw [hrel.item_eq, hnext, hprev, if_neg, if_neg]
    · rintro ⟨h0, heq⟩
      exact hb _ (hp h0) (by rw [ItemId.addr_clearFlags]; exact heq)
    · rintro ⟨h0, heq⟩
      exact hb _ (hn h0) (by rw [ItemId.addr_clearFlags]; exact heq)
  · -- `itemid_equal` finds the item at the ends of its list
    have hend : ∀ id : ItemId, (s.mem.item x.addr).itemId.itemidEqual id = true ↔
        id.place = some x := by
      intro id
      rw [ItemId.itemidEqual_iff, hA.item_id x (hLA x hx), ItemId.place_eq_some]
      constructor
      · intro heq
        refine ⟨?_, heq.symm⟩
        rintro rfl
        exact hA.ne_zero x (hLA x hx) heq
      · rintro ⟨-, heq⟩
        exact heq.symm
    apply Shelved.remove h hx
    · intro y hy _
      simp only [hnext, hp_addr y (hLA y hy)]
      split <;> rfl
    · intro y hy _
      simp only [hprev, hn_addr y (hLA y hy)]
      split <;> rfl
    · intro j
      simp only [hmng, hk, hend, Function.update_apply]
      rcases eq_or_ne j (area x) with rfl | hj
      · simp only [if_true, true_and]
        split <;> rfl
      · simp only [hj, false_and, if_false]
    · intro j
      simp only [hmng, hk, hend, Function.update_apply]
      rcases eq_or_ne j (area x) with rfl | hj
      · simp only [if_true, true_and]
        split <;> rfl
      · simp only [hj, false_and, if_false]

end Listed

end Mdb
