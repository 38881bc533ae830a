-- SUMMARY: The counters of a slab are right as long as no item is removed.
import NetworkEtc.Mdb.Contents
import NetworkEtc.Mdb.Service

/-!
# Counting the items of a slab

`item_count` goes up where an item is allocated, and an eviction takes it down again for
the item that loses its place; `free_item` does not touch it. So an item that is removed
stays counted.
-/

namespace Mdb

open Library

/-- `put`, `get`, `remove` or `add_count`. -/
def StoreOp.IsItemCall : StoreOp → Prop
  | .put .. => True
  | .get .. => True
  | .remove .. => True
  | .addCount .. => True
  | _ => False

namespace Store

/-- Every counter of a slab is the length of the list it stands for. -/
def CountsLists (s : Store) : Prop :=
  ∀ i < s.slabsCount, ∀ k, ∃ l,
    Seg (fun x => (s.mem.item x.addr).next.place) ((s.slabs i).itemHead k).place l none ∧
      ((s.slabs i).itemCount k).toNat = l.length

/-- The slab and the area whose list an item is in. -/
def listOf (s : Store) (x : ItemId) : Nat × Nat := (x.slabId.toNat, (s.mem.item x.addr).area)

/-- How many of the items are in a list. -/
def listed (s : Store) (live : Finset ItemId) (p : Nat × Nat) : Nat :=
  tally live s.listOf (fun _ => 1) p

/-- The counters stand for the items in use, and for one more in the list `excess`. -/
structure Overcounts (s : Store) (g : Ledger) (live : Finset ItemId) (excess : Option (Nat × Nat)) :
    Prop where
  mem_iff : ∀ x, x ∈ live ↔ g.InUse x
  counts : ∀ i < g.count, ∀ k, (s.slabs i).itemCount k =
    UInt64.ofNat (s.listed live (i, k) + if excess = some (i, k) then 1 else 0)

variable {s s' : Store} {g g' : Ledger} {live : Finset ItemId} {excess : Option (Nat × Nat)}
  {x : ItemId} {i k : Nat} {p : Nat × Nat} {it : MdbItem}

theorem listed_congr (h : ∀ x ∈ live, (s'.mem.item x.addr).body = (s.mem.item x.addr).body) :
    s'.listed live p = s.listed live p := by
  apply tally_congr
  · intro x hx
    rw [listOf, listOf, MdbItem.area_congr (h x hx)]
  · exact fun _ _ => rfl

/-- The length of a list. -/
theorem Settled.length_list (h : s.Settled g) (hlive : ∀ x, x ∈ live ↔ g.InUse x)
    (hi : i < g.count) : ∃ l, Seg (fun x => (s.mem.item x.addr).next.place)
      ((s.slabs i).itemHead k).place l none ∧ l.length = s.listed live (i, k) := by
  obtain ⟨l, hlist, hmem⟩ := h.listed i hi k
  refine ⟨l, hlist.forth, ?_⟩
  have hnodup : l.Nodup := hlist.nodup
  rw [listed, tally_one, ← List.toFinset_card_of_nodup hnodup]
  congr 1
  ext x
  have hx : x ∈ l ↔ g.InSlab i x ∧ g.area x = k := hmem x
  rw [List.mem_toFinset, hx, Finset.mem_filter, hlive, listOf, Prod.mk.injEq]
  constructor
  · rintro ⟨hxi, hxk⟩
    have hx' := Ledger.inUse_of hi hxi
    exact ⟨hx', h.slab_eq hi hxi, (h.area_eq x hx').trans hxk⟩
  · rintro ⟨hx', hslab, harea⟩
    rw [h.area_eq x hx'] at harea
    obtain ⟨j, hj, hxj⟩ := hx'
    rw [h.slab_eq hj hxj] at hslab
    exact ⟨hslab ▸ hxj, harea⟩

/-- A list and one more fit a counter. -/
theorem Settled.listed_lt (h : s.Settled g) (hlive : ∀ x, x ∈ live ↔ g.InUse x) :
    s.listed live p + 1 < 2 ^ 64 := by
  have hcard : live.card ≤ maxItems := by
    rw [← Finset.length_toList]
    apply h.length_le live.nodup_toList
    intro x hx
    exact (hlive x).mp (Finset.mem_toList.mp hx)
  have hle : s.listed live p ≤ live.card * 1 := tally_le fun _ _ => le_rfl
  rw [Nat.mul_one] at hle
  exact (Nat.succ_le_succ (hle.trans hcard)).trans_lt (by decide)

section

variable {c : Nat → UInt64} {n a : Nat}

theorem update_drop (h : c k = UInt64.ofNat (n + if a = k then 1 else 0)) :
    Function.update c a (c a - 1) k = UInt64.ofNat n := by
  rcases eq_or_ne k a with rfl | hk
  · rw [if_pos rfl, UInt64.ofNat_add] at h
    rw [Function.update_self, h]
    exact UInt64.add_sub_cancel ..
  · rw [if_neg hk.symm, Nat.add_zero] at h
    rw [Function.update_of_ne hk, h]

theorem update_add (h : c k = UInt64.ofNat n) :
    Function.update c a (c a + 1) k = UInt64.ofNat (n + if a = k then 1 else 0) := by
  rcases eq_or_ne k a with rfl | hk
  · rw [Function.update_self, h, if_pos rfl, UInt64.ofNat_add]
    rfl
  · rw [Function.update_of_ne hk, h, if_neg hk.symm, Nat.add_zero]

end

/-- The list of an item that has been put. -/
theorem Put.listOf_eq (hp : s.Put s' g g' i x it) : s'.listOf x = (i, it.area) := by
  rw [listOf, MdbItem.area_congr hp.item_eq,
    hp.settled.slab_eq (hp.count_eq ▸ hp.lt) hp.inSlab]

namespace Overcounts

/-- Without an item too many the counters are right. -/
theorem countsLists (ho : s.Overcounts g live none) (h : s.Settled g) : s.CountsLists := by
  intro i hi k
  rw [h.count_eq] at hi
  obtain ⟨l, hseg, hlen⟩ := h.length_list (k := k) ho.mem_iff hi
  refine ⟨l, hseg, ?_⟩
  rw [ho.counts i hi k, if_neg (by simp), Nat.add_zero, hlen]
  exact UInt64.toNat_ofNat_of_lt' (Nat.lt_of_succ_lt (h.listed_lt ho.mem_iff))

/-- With one, they are not. -/
theorem not_countsLists (ho : s.Overcounts g live (some p)) (h : s.Settled g) (hp : p.1 < g.count) :
    ¬ s.CountsLists := by
  intro hcounts
  obtain ⟨l, hseg, hlen⟩ := hcounts p.1 (h.count_eq ▸ hp) p.2
  obtain ⟨m, hseg', hlen'⟩ := h.length_list (k := p.2) ho.mem_iff hp
  rw [ho.counts p.1 hp p.2, if_pos rfl, UInt64.toNat_ofNat_of_lt' (h.listed_lt ho.mem_iff),
    hseg.unique hseg', hlen'] at hlen
  exact absurd hlen (Nat.succ_ne_self _)

theorem of_countsLists (h : s.Settled g) (hlive : ∀ x, x ∈ live ↔ g.InUse x)
    (hcounts : s.CountsLists) : s.Overcounts g live none := by
  refine ⟨hlive, fun i hi k => ?_⟩
  obtain ⟨l, hseg, hlen⟩ := hcounts i (h.count_eq ▸ hi) k
  obtain ⟨m, hseg', hlen'⟩ := h.length_list (k := k) hlive hi
  rw [if_neg (by simp), Nat.add_zero, ← hlen', ← hseg.unique hseg', ← hlen, UInt64.ofNat_toNat]

theorem touched (ho : s.Overcounts g live excess) (ht : s.Touched s' g) :
    s'.Overcounts g live excess := by
  refine ⟨ho.mem_iff, fun i hi k => ?_⟩
  rw [ht.itemCount_eq, listed_congr fun x _ => ht.body_eq x.addr]
  exact ho.counts i hi k

/-- An item that is removed stays counted. -/
theorem removed (ho : s.Overcounts g live none) (h : s.Settled g) (hr : s.Removed s' g g' x) :
    s'.Overcounts g' (live.erase x) (some (s.listOf x)) ∧ (s.listOf x).1 < g'.count := by
  have hx : x ∈ live := (ho.mem_iff x).mpr hr.inUse
  have hmem : ∀ y, y ∈ live.erase x ↔ g'.InUse y := by
    intro y
    rw [Finset.mem_erase, hr.given.inUse, ho.mem_iff, and_comm]
  refine ⟨⟨hmem, fun i hi k => ?_⟩, ?_⟩
  · rw [hr.given.count_eq] at hi
    rw [hr.itemCount_eq, ho.counts i hi k, if_neg (by simp), Nat.add_zero,
      listed_congr fun y hy => hr.body_eq y ((hmem y).mp hy)]
    have herase : s.listed (live.erase x) (i, k) + (if s.listOf x = (i, k) then 1 else 0) =
      s.listed live (i, k) := tally_erase hx
    simp only [Option.some.injEq]
    rw [herase]
  · obtain ⟨j, hj, hxj⟩ := hr.inUse
    rw [hr.given.count_eq, listOf, h.slab_eq hj hxj]
    exact hj

theorem putNew (ho : s.Overcounts g live excess) (hp : s.PutNew s' g g' i x it) :
    s'.Overcounts g' (Insert.insert x live) excess := by
  have hx : x ∉ live := fun hx => hp.fresh ((ho.mem_iff x).mp hx)
  refine ⟨fun y => ?_, fun j hj k => ?_⟩
  · rw [Finset.mem_insert, hp.inUse_iff, ho.mem_iff]
  rw [hp.count_eq] at hj
  have hlisted : s'.listed (Insert.insert x live) (j, k) =
      s.listed live (j, k) + if (i, it.area) = (j, k) then 1 else 0 := by
    rw [listed, tally_insert hx, hp.listOf_eq]
    congr 1
    apply listed_congr
    intro y hy
    apply hp.body_eq y ((ho.mem_iff y).mp hy)
    rintro rfl
    exact hx hy
  rw [hlisted, Nat.add_right_comm]
  rcases eq_or_ne j i with rfl | hji
  · rw [hp.itemCount_eq, update_add (ho.counts j hj k)]
    simp
  · rw [hp.itemCount_ne j hji, ho.counts j hj k, if_neg fun heq => hji (Prod.mk.inj heq).1.symm]
    simp

theorem putOver (ho : s.Overcounts g live excess) (h : s.Settled g)
    (hp : s.PutOver s' g g' i x it) : s'.Overcounts g' live excess := by
  have hx' := Ledger.inUse_of hp.lt hp.old
  have hx : x ∈ live := (ho.mem_iff x).mpr hx'
  refine ⟨fun y => ?_, fun j hj k => ?_⟩
  · rw [hp.inUse_iff, ho.mem_iff]
    constructor
    · exact Or.inr
    · rintro (rfl | hy)
      · exact hx'
      · exact hy
  rw [hp.count_eq] at hj
  have hold : s.listOf x = (i, g.area x) := by rw [listOf, h.slab_eq hp.lt hp.old, h.area_eq x hx']
  have herase : s.listed (live.erase x) (j, k) + (if (i, g.area x) = (j, k) then 1 else 0) =
      s.listed live (j, k) := by
    rw [← hold]
    exact tally_erase hx
  have hlisted : s'.listed live (j, k) =
      s.listed (live.erase x) (j, k) + if (i, it.area) = (j, k) then 1 else 0 := by
    rw [← Finset.insert_erase hx, listed, tally_insert (Finset.notMem_erase x live), hp.listOf_eq,
      Finset.insert_erase hx]
    congr 1
    apply listed_congr
    intro y hy
    obtain ⟨hyx, hy⟩ := Finset.mem_erase.mp hy
    exact hp.body_eq y ((ho.mem_iff y).mp hy) hyx
  have hcount := ho.counts j hj k
  rw [← herase, Nat.add_right_comm] at hcount
  rw [hlisted, Nat.add_right_comm]
  rcases eq_or_ne j i with rfl | hji
  · simp only [Prod.mk.injEq, true_and] at hcount ⊢
    rw [hp.itemCount_eq]
    exact update_add (update_drop hcount)
  · have hne : ∀ a, (i, a) ≠ (j, k) := fun a heq => hji (Prod.mk.inj heq).1.symm
    rw [if_neg (hne _)] at hcount ⊢
    rw [hp.itemCount_ne j hji, hcount]

end Overcounts

/-! # Which calls remove an item -/

/-- The call removes an item from the store. A put removes the item with its key, unless
it is refused; a get removes it if it has expired; `add_count` is a get that may be
followed by a put, which is refused if the item is locked. -/
def Removes (s : Store) : StoreOp → Prop
  | .put key value versionCare _ crrntTime _ => ∃ it, s.entry key.data = some it ∧
    ¬ Refuses key value versionCare crrntTime s it
  | .get key _ time => ∃ it, s.entry key.data = some it ∧ s.isItemExpired it time = true
  | .remove key => ∃ it, s.entry key.data = some it
  | .addCount key count initValue notNegative _ resultValue getTime _ _ =>
    ∃ it, s.entry key.data = some it ∧ (s.isItemExpired it getTime = true ∨
      ((nextCount TAIR_RETURN_SUCCESS (gotKey key it) (gotValue .init it) count initValue
          notNegative resultValue).1 = none ∧
        testFlag it.itemId.itemFlags TAIR_ITEM_FLAG_LOCKED = false))
  | _ => False

/-- The store is settled, and its counters stand for the items in use, and for one more
in the list `excess`. -/
def Counting (s : Store) (excess : Option (Nat × Nat)) : Prop :=
  ∃ g live, s.Settled g ∧ s.Overcounts g live excess ∧ ∀ p, excess = some p → p.1 < g.count

theorem Counting.countsLists_iff (hc : s.Counting excess) : s.CountsLists ↔ excess = none := by
  obtain ⟨g, live, h, ho, hlt⟩ := hc
  cases excess with
  | none => exact iff_of_true (ho.countsLists h) rfl
  | some p => exact iff_of_false (ho.not_countsLists h (hlt p rfl)) (by simp)

section

variable {key value : DataEntry} {version : UInt16} {versionCare : Bool} {expired : Int}
  {time crrntTime evictTime : UInt32}

theorem Overcounts.placeItem {r : Int × DataEntry} (ho : s.Overcounts g live excess)
    (hlt : ∀ p, excess = some p → p.1 < g.count) (h : s.Settled g) (hkey : key.IsKey)
    (hvalue : value.IsValue) (harea : key.area = keyArea key.data)
    (hnew : ∀ y, g.InUse y → s.keyOf y ≠ key.data)
    (hplace : s.placeItem key value version expired crrntTime evictTime = some (r, s')) :
    s'.Counting excess := by
  rcases h.placeItem version expired crrntTime evictTime hkey.1 hkey.2 hvalue harea hnew with
    ⟨i, x, slot, s₁, g₁, -, -, -, hplace', hnew⟩ | ⟨i, x, slot, s₁, g₁, -, -, -, hplace', hover⟩ |
    ⟨hnone, -⟩
  · rw [hplace', Option.some.injEq, Prod.mk.injEq] at hplace
    obtain ⟨-, rfl⟩ := hplace
    exact ⟨g₁, _, hnew.settled, ho.putNew hnew, fun p hp => hnew.count_eq ▸ hlt p hp⟩
  · rw [hplace', Option.some.injEq, Prod.mk.injEq] at hplace
    obtain ⟨-, rfl⟩ := hplace
    exact ⟨g₁, _, hover.settled, ho.putOver h hover, fun p hp => hover.count_eq ▸ hlt p hp⟩
  · rw [hnone] at hplace
    exact absurd hplace (by simp)

/-- A put removes an item or none. -/
theorem Overcounts.doPut {r : Int × DataEntry} (ho : s.Overcounts g live excess)
    (hlt : ∀ p, excess = some p → p.1 < g.count) (h : s.Settled g) (hkey : key.IsKey)
    (hvalue : value.IsValue)
    (hput : s.doPut key value versionCare expired crrntTime evictTime = some (r, s')) :
    (¬ s.Removes (.put key value versionCare expired crrntTime evictTime) ∧ s'.Counting excess) ∨
      (s.Removes (.put key value versionCare expired crrntTime evictTime) ∧
        (excess = none → ∃ p, s'.Counting (some p))) := by
  rcases h.doPut value versionCare expired crrntTime evictTime hkey.ne_nil with
    ⟨x, hx, hxkey, hrefuses, code, -, hrefused⟩ | ⟨version, s₁, g₁, -, hdropped, haccepts, hplace⟩
  · left
    rw [hrefused, Option.some.injEq, Prod.mk.injEq] at hput
    obtain ⟨-, rfl⟩ := hput
    refine ⟨?_, g, live, h, ho, hlt⟩
    rintro ⟨it, hentry, haccept⟩
    rw [h.entry_of hx hxkey, Option.some.injEq] at hentry
    rw [← hentry] at haccept
    exact haccept hrefuses
  · rw [hplace] at hput
    have hkey' : ({ key with area := keyArea key.data } : DataEntry).IsKey := hkey
    have hnew := fun y hy => hdropped.keyOf_ne (y := y) h hy
    cases hdropped with
    | absent hnone =>
      refine Or.inl ⟨?_, ho.placeItem hlt h hkey' hvalue rfl hnew hput⟩
      rintro ⟨it, hentry, -⟩
      rw [h.entry_none hkey.ne_nil hnone] at hentry
      exact absurd hentry (by simp)
    | @removed _ _ x hxkey hr =>
      refine Or.inr ⟨⟨_, h.entry_of hr.inUse hxkey, haccepts x hr.inUse hxkey⟩, ?_⟩
      rintro rfl
      obtain ⟨ho₁, hlt₁⟩ := ho.removed h hr
      refine ⟨_, ho₁.placeItem (fun p hp => ?_) hr.settled hkey' hvalue rfl hnew hput⟩
      rw [← Option.some.inj hp]
      exact hlt₁

theorem serverFlag_nextCount {rc : Int} {oldValue : DataEntry} {count initValue resultValue : Int32}
    {notNegative : Bool} : (nextCount rc key oldValue count initValue notNegative
      resultValue).2.2.serverFlag = oldValue.serverFlag := by
  unfold nextCount
  split
  · split
    · split
      · split <;> rfl
      · simp only
        split
        · rfl
        · split <;> rfl
    · rfl
  · split <;> rfl

/-- Where `add_count` has found an item, only a lock makes its put refuse. -/
theorem refuses_counter {oldValue : DataEntry} {count : Int32} (hflag : oldValue.serverFlag = 0) :
    Refuses (gotKey key it) (countEntry oldValue count) true crrntTime s it ↔
      testFlag it.itemId.itemFlags TAIR_ITEM_FLAG_LOCKED = true := by
  have hserver : (countEntry oldValue count).serverFlag &&& TAIR_OPERATION_UNLOCK = 0 := by
    change oldValue.serverFlag &&& TAIR_OPERATION_UNLOCK = 0
    rw [hflag]
    decide
  have hversion : (gotKey key it).dataMeta.version = it.version := rfl
  unfold Refuses
  simp [hserver, hversion]

theorem Settled.addCount_counting {r : Int × Int32 × DataEntry}
    {count initValue resultValue : Int32} {notNegative : Bool} {getTime : UInt32}
    (h : s.Settled g) (ho : s.Overcounts g live none) (hkey : key.IsKey)
    (hadd : s.doAddCount key count initValue notNegative expired resultValue getTime crrntTime
      evictTime = some (r, s')) :
    (¬ s.Removes (.addCount key count initValue notNegative expired resultValue getTime crrntTime
        evictTime) ∧ s'.Counting none) ∨
      (s.Removes (.addCount key count initValue notNegative expired resultValue getTime crrntTime
        evictTime) ∧ ∃ p, s'.Counting (some p)) := by
  have hlt : ∀ p : Nat × Nat, none = some p → p.1 < g.count := fun p hp => absurd hp (by simp)
  obtain ⟨rc, key', oldValue, s₁, hget, hrest⟩ := doAddCount_cases hadd
  rcases h.doGet .init getTime hkey.ne_nil with ⟨hget', hnone⟩ |
    ⟨x, hx, hxkey, ⟨hexpired, s₂, g₂, hget', hr⟩ | ⟨hfresh, ⟨-, s₂, hget', ht⟩ | ⟨-, hfail⟩⟩⟩
  · -- a new counter
    rw [hget', Option.some.injEq, Prod.mk.injEq, Prod.mk.injEq, Prod.mk.injEq] at hget
    obtain ⟨⟨rfl, rfl, rfl⟩, rfl⟩ := hget
    have habsent : ∀ it, s.entry key.data ≠ some it := by
      intro it hentry
      rw [h.entry_none hkey.ne_nil hnone] at hentry
      exact absurd hentry (by simp)
    refine Or.inl ⟨fun ⟨it, hentry, _⟩ => habsent it hentry, ?_⟩
    rcases hrest with ⟨code, -, -, rfl⟩ | ⟨-, rc', key'', hput, -⟩
    · exact ⟨g, live, h, ho, hlt⟩
    · rcases ho.doPut hlt h hkey (isValue_countEntry _ count) hput with ⟨-, hcounting⟩ |
        ⟨⟨it, hentry, -⟩, -⟩
      · exact hcounting
      · exact absurd hentry (habsent it)
  · -- an expired item goes, and the counter starts anew
    rw [hget', Option.some.injEq, Prod.mk.injEq, Prod.mk.injEq, Prod.mk.injEq] at hget
    obtain ⟨⟨rfl, rfl, rfl⟩, rfl⟩ := hget
    refine Or.inr ⟨⟨_, h.entry_of hx hxkey, Or.inl hexpired⟩, ?_⟩
    obtain ⟨ho₂, hlt₂⟩ := ho.removed h hr
    have hlt₂' : ∀ p, some (s.listOf x) = some p → p.1 < g₂.count :=
      fun p hp => Option.some.inj hp ▸ hlt₂
    rcases hrest with ⟨code, -, -, rfl⟩ | ⟨-, rc', key'', hput, -⟩
    · exact ⟨_, g₂, _, hr.settled, ho₂, hlt₂'⟩
    · rcases ho₂.doPut hlt₂' hr.settled hkey (isValue_countEntry _ count) hput with
        ⟨-, hcounting⟩ | ⟨⟨it, hentry, -⟩, -⟩
      · exact ⟨_, hcounting⟩
      · rw [← hxkey, hr.entry_self h] at hentry
        exact absurd hentry (by simp)
  · -- the counter that is found is put anew, unless the checks or a lock prevent it
    rw [hget', Option.some.injEq, Prod.mk.injEq, Prod.mk.injEq, Prod.mk.injEq] at hget
    obtain ⟨⟨rfl, rfl, rfl⟩, rfl⟩ := hget
    have hentry := h.entry_of hx hxkey
    have hentry₂ : s₂.entry key.data = some (s.mem.item x.addr).body := by
      rw [ht.entry h hkey.ne_nil, hentry]
    rcases hrest with ⟨code, hstop, -, rfl⟩ | ⟨hgo, rc', key'', hput, -⟩
    · refine Or.inl ⟨?_, g, live, ht.settled, ho.touched ht, hlt⟩
      rintro ⟨it, hit, hexpired | ⟨hgo, -⟩⟩
      · rw [hentry, Option.some.injEq] at hit
        rw [← hit, isItemExpired_body, hfresh] at hexpired
        exact absurd hexpired (by decide)
      · rw [hentry, Option.some.injEq] at hit
        rw [← hit] at hgo
        exact absurd (hstop.symm.trans hgo) (by simp)
    · have hflag : (nextCount TAIR_RETURN_SUCCESS (gotKey key (s.mem.item x.addr))
          (gotValue .init (s.mem.item x.addr)) count initValue notNegative
          resultValue).2.2.serverFlag = 0 := serverFlag_nextCount
      have hlocked : Refuses (gotKey key (s.mem.item x.addr)) (countEntry _ count) true crrntTime s₂
          (s.mem.item x.addr) ↔ _ := refuses_counter hflag
      have hkey' : (gotKey key (s.mem.item x.addr)).IsKey := hkey
      rcases (ho.touched ht).doPut hlt ht.settled hkey' (isValue_countEntry _ count) hput with
        ⟨hstays, hcounting⟩ | ⟨⟨it, hit, haccepts⟩, hcounting⟩
      · refine Or.inl ⟨?_, hcounting⟩
        rintro ⟨it, hit, hexpired | ⟨-, hfree⟩⟩
        · rw [hentry, Option.some.injEq] at hit
          rw [← hit, isItemExpired_body, hfresh] at hexpired
          exact absurd hexpired (by decide)
        · rw [hentry, Option.some.injEq] at hit
          apply hstays
          refine ⟨_, hentry₂, fun hrefuses => ?_⟩
          have hlock := hlocked.mp ((refuses_congr rfl).mp hrefuses)
          rw [← hit] at hfree
          exact absurd (hlock.symm.trans hfree) (by decide)
      · refine Or.inr ⟨⟨_, hentry, Or.inr ⟨hgo, ?_⟩⟩, hcounting rfl⟩
        have hit : s₂.entry key.data = some it := hit
        rw [hentry₂, Option.some.injEq] at hit
        rw [← hit] at haccepts
        apply Bool.eq_false_iff.mpr
        exact fun hlock => haccepts ((refuses_congr rfl).mpr (hlocked.mpr hlock))
  · rw [hfail] at hget
    exact absurd hget (by simp)

/-- Where the counters are right, a call leaves them right or removes an item. -/
theorem Settled.step_counting {op : StoreOp} (h : s.Settled g) (hlive : ∀ x, x ∈ live ↔ g.InUse x)
    (hcounts : s.CountsLists) (hop : op.Admissible) (hcall : op.IsItemCall)
    (hstep : s.step op = some s') :
    (¬ s.Removes op ∧ s'.Counting none) ∨ (s.Removes op ∧ ∃ p, s'.Counting (some p)) := by
  have ho := Overcounts.of_countsLists h hlive hcounts
  have hlt : ∀ p : Nat × Nat, none = some p → p.1 < g.count := fun p hp => absurd hp (by simp)
  have hremoved : ∀ {x s₁ g₁}, s.Removed s₁ g g₁ x → ∃ p, s₁.Counting (some p) := by
    intro x s₁ g₁ hr
    obtain ⟨ho₁, hlt₁⟩ := ho.removed h hr
    exact ⟨_, g₁, _, hr.settled, ho₁, fun p hp => Option.some.inj hp ▸ hlt₁⟩
  have hstay : s.Counting none := ⟨g, live, h, ho, hlt⟩
  have habsent : ∀ {key : DataEntry}, key.IsKey → (∀ y, g.InUse y → s.keyOf y ≠ key.data) →
      ∀ it, s.entry key.data ≠ some it := by
    intro key hkey hnone it hentry
    rw [h.entry_none hkey.ne_nil hnone] at hentry
    exact absurd hentry (by simp)
  cases op with
  | put key value versionCare expired crrntTime evictTime =>
    obtain ⟨⟨r, s₁⟩, hput, rfl⟩ := Option.map_eq_some_iff.mp hstep
    exact (ho.doPut hlt h hop.1 hop.2 hput).imp_right fun hput => ⟨hput.1, hput.2 rfl⟩
  | get key value time =>
    obtain ⟨⟨r, s₁⟩, hget, rfl⟩ := Option.map_eq_some_iff.mp hstep
    rcases h.doGet value time hop.ne_nil with ⟨hget', hnone⟩ |
      ⟨x, hx, hxkey, ⟨hexpired, s₂, g₂, hget', hr⟩ | ⟨hfresh, ⟨-, s₂, hget', ht⟩ | ⟨-, hfail⟩⟩⟩
    · rw [hget', Option.some.injEq, Prod.mk.injEq] at hget
      obtain ⟨-, rfl⟩ := hget
      exact Or.inl ⟨fun ⟨it, hentry, _⟩ => habsent hop hnone it hentry, hstay⟩
    · rw [hget', Option.some.injEq, Prod.mk.injEq] at hget
      obtain ⟨-, rfl⟩ := hget
      exact Or.inr ⟨⟨_, h.entry_of hx hxkey, hexpired⟩, hremoved hr⟩
    · rw [hget', Option.some.injEq, Prod.mk.injEq] at hget
      obtain ⟨-, rfl⟩ := hget
      refine Or.inl ⟨?_, g, live, ht.settled, ho.touched ht, hlt⟩
      rintro ⟨it, hentry, hexpired⟩
      rw [h.entry_of hx hxkey, Option.some.injEq] at hentry
      rw [← hentry, isItemExpired_body, hfresh] at hexpired
      exact absurd hexpired (by decide)
    · rw [hfail] at hget
      exact absurd hget (by simp)
  | remove key =>
    obtain ⟨⟨r, s₁⟩, hremove, rfl⟩ := Option.map_eq_some_iff.mp hstep
    obtain ⟨code, key', s₂, g₂, hremove', hdropped⟩ := h.doRemove hop.ne_nil
    rw [hremove', Option.some.injEq, Prod.mk.injEq] at hremove
    obtain ⟨-, rfl⟩ := hremove
    cases hdropped with
    | absent hnone => exact Or.inl ⟨fun ⟨it, hentry⟩ => habsent hop hnone it hentry, hstay⟩
    | removed hxkey hr => exact Or.inr ⟨⟨_, h.entry_of hr.inUse hxkey⟩, hremoved hr⟩
  | addCount key count initValue notNegative expired resultValue getTime crrntTime evictTime =>
    obtain ⟨⟨r, s₁⟩, hadd, rfl⟩ := Option.map_eq_some_iff.mp hstep
    exact h.addCount_counting ho hop hadd
  | lookup => exact absurd hcall id
  | clear => exact absurd hcall id
  | setAreaQuota => exact absurd hcall id
  | checkQuota => exact absurd hcall id

end

/-- Nothing is in an empty store, and nothing is counted. -/
theorem Empty.countsLists (h : s.Empty g) : s.CountsLists := by
  have ho : s.Overcounts g ∅ none := by
    refine ⟨fun x => iff_of_false (Finset.notMem_empty x) (h.none_inUse x), fun i hi k => ?_⟩
    rw [h.itemCount_eq i hi k, listed, tally_empty, if_neg (by simp)]
    rfl
  exact ho.countsLists h.settled

/-- In every state of a run of calls the counters are the lengths of the lists, if and only
if no call removes an item. -/
theorem countsLists_run {param : MdbParam} {ops : List StoreOp} {s₀ : Store}
    (hinit : Store.init param = some s₀) (hops : ∀ op ∈ ops, op.Admissible ∧ op.IsItemCall)
    (hrun : s₀.run ops = some s) :
    (∀ ops₁ ops₂ s₁, ops = ops₁ ++ ops₂ → s₀.run ops₁ = some s₁ → s₁.CountsLists) ↔
      ∀ ops₁ op ops₂ s₁, ops = ops₁ ++ op :: ops₂ → s₀.run ops₁ = some s₁ → ¬ s₁.Removes op := by
  have hreached : ∀ ops₁ ops₂ s₁, ops = ops₁ ++ ops₂ → s₀.run ops₁ = some s₁ →
      ∃ g live, s₁.Settled g ∧ s₁.Audited g live := by
    rintro ops₁ ops₂ s₁ rfl hrun₁
    exact reached hinit (fun op hop => (hops op (List.mem_append_left _ hop)).1) hrun₁
  have hstep : ∀ ops₁ op ops₂ s₁ s₂, ops = ops₁ ++ op :: ops₂ → s₀.run ops₁ = some s₁ →
      s₁.CountsLists → s₁.step op = some s₂ → (s₂.CountsLists ↔ ¬ s₁.Removes op) := by
    intro ops₁ op ops₂ s₁ s₂ heq hrun₁ hcounts hstep
    obtain ⟨g, live, hs, hlive⟩ := hreached _ _ _ heq hrun₁
    obtain ⟨hop, hcall⟩ := hops op (by rw [heq]; simp)
    rcases hs.step_counting hlive.mem_iff hcounts hop hcall hstep with ⟨hstays, hcounting⟩ |
      ⟨hremoves, p, hcounting⟩
    · exact iff_of_true (hcounting.countsLists_iff.mpr rfl) hstays
    · refine iff_of_false (fun hcounts₂ => ?_) (not_not.mpr hremoves)
      exact absurd (hcounting.countsLists_iff.mp hcounts₂) (by simp)
  obtain ⟨g, hempty⟩ := empty_init hinit
  apply runFrom_forall_iff (P := fun _ s₁ => CountsLists s₁) (C := fun s₁ op => ¬ Removes s₁ op) hrun
  · exact hempty.countsLists
  · exact hstep

instance decidableRefuses (key value : DataEntry) (versionCare : Bool) (crrntTime : UInt32)
    (s : Store) (it : MdbItem) : Decidable (Refuses key value versionCare crrntTime s it) :=
  inferInstanceAs (Decidable (_ ∧ _ ∨ _ ∧ _ ∧ _ ∧ _))

instance decidableRemoves (s : Store) (op : StoreOp) : Decidable (s.Removes op) :=
  match op with
  | .put key value versionCare _ crrntTime _ => inferInstanceAs (Decidable
      (∃ it ∈ s.entry key.data, ¬ Refuses key value versionCare crrntTime s it))
  | .get key _ time => inferInstanceAs (Decidable
      (∃ it ∈ s.entry key.data, s.isItemExpired it time = true))
  | .remove key => decidable_of_iff ((s.entry key.data).isSome = true) Option.isSome_iff_exists
  | .addCount key count initValue notNegative _ resultValue getTime _ _ => inferInstanceAs (Decidable
      (∃ it ∈ s.entry key.data, s.isItemExpired it getTime = true ∨
        ((nextCount TAIR_RETURN_SUCCESS (gotKey key it) (gotValue .init it) count initValue
            notNegative resultValue).1 = none ∧
          testFlag it.itemId.itemFlags TAIR_ITEM_FLAG_LOCKED = false)))
  | .lookup .. => instDecidableFalse
  | .clear .. => instDecidableFalse
  | .setAreaQuota .. => instDecidableFalse
  | .checkQuota => instDecidableFalse

instance decidableIsItemCall (op : StoreOp) : Decidable op.IsItemCall :=
  match op with
  | .put .. => instDecidableTrue
  | .get .. => instDecidableTrue
  | .remove _ => instDecidableTrue
  | .addCount .. => instDecidableTrue
  | .lookup .. => instDecidableFalse
  | .clear .. => instDecidableFalse
  | .setAreaQuota .. => instDecidableFalse
  | .checkQuota => instDecidableFalse

def putRemove : List StoreOp := [.put (keyNo 1) (keyNo 10) false 0 1 1, .remove (keyNo 1)]

/-- Three keys are put, so that the first loses its place. -/
def putEvict : List StoreOp :=
  [.put (keyNo 1) (keyNo 10) false 0 1 1, .put (keyNo 2) (keyNo 20) false 0 1 1,
    .put (keyNo 3) (keyNo 30) false 0 1 1, .remove (keyNo 1)]

theorem keeps_putEvict : EachStep step (fun s op => ¬ s.Removes op) smallStore putEvict := by
  decide +kernel

theorem not_keeps_putRemove :
    ¬ EachStep step (fun s op => ¬ s.Removes op) smallStore putRemove := by
  decide +kernel

/-- The counters are right all along where a key is evicted and then not found; where it is put
and removed, one of the states has a wrong one. -/
theorem countsLists_putEvict :
    (∀ ops₁ ops₂ s, putEvict = ops₁ ++ ops₂ → smallStore.run ops₁ = some s → s.CountsLists) ∧
    ¬ ∀ ops₁ ops₂ s, putRemove = ops₁ ++ ops₂ → smallStore.run ops₁ = some s →
      s.CountsLists := by
  have hops : ∀ op ∈ putEvict ++ putRemove, op.Admissible ∧ op.IsItemCall := by decide +kernel
  have hsome : (smallStore.run putEvict).isSome ∧ (smallStore.run putRemove).isSome := by
    decide +kernel
  obtain ⟨s, hrun⟩ := Option.isSome_iff_exists.mp hsome.1
  obtain ⟨s', hrun'⟩ := Option.isSome_iff_exists.mp hsome.2
  have hcounts := countsLists_run init_smallParam
    (fun op hop => hops op (List.mem_append_left _ hop)) hrun
  have hcounts' := countsLists_run init_smallParam
    (fun op hop => hops op (List.mem_append_right _ hop)) hrun'
  refine ⟨hcounts.mpr (eachStep_iff.mp keeps_putEvict), fun hall => ?_⟩
  exact not_keeps_putRemove (eachStep_iff.mpr (hcounts'.mp hall))

/-- The list of the area is empty after that, its counter is one. -/
theorem countsLists_drift : Store.init smallParam = some smallStore ∧
    ∃ s, smallStore.run putRemove = some s ∧ ((s.slabs 0).itemCount 3).toNat = 1 ∧
      ¬ s.CountsLists := by
  have hcalls : (smallStore.run putRemove).any (fun s => s.slabsCount = 1 ∧
      ((s.slabs 0).itemCount 3).toNat = 1 ∧ ((s.slabs 0).itemHead 3).place = none) = true := by
    decide +kernel
  obtain ⟨s, hrun, hrest⟩ := (Option.any_eq_true ..).mp hcalls
  obtain ⟨hcount, hone, hhead⟩ := of_decide_eq_true hrest
  refine ⟨init_smallParam, s, hrun, hone, fun hcounts => ?_⟩
  obtain ⟨l, hseg, hlen⟩ := hcounts 0 (by rw [hcount]; exact Nat.one_pos) 3
  rw [hone, hhead] at *
  cases l with
  | nil => exact absurd hlen (by decide)
  | cons x l => exact absurd hseg.1 (by simp)

end Store

end Mdb
