-- SUMMARY: What removing an item and putting one do to a settled store.
import NetworkEtc.Mdb.Eviction

/-!
# Changes of the store

An item is `Removed`, or one is `Put`, in a place that was free or in the place of another
item. Both lead from a settled store to a settled store, and say what becomes of the items
and of the statistics.
-/

namespace Mdb

open Library

/-! # Statistics -/

/-- The statistics of the areas without an item. -/
def statDrop (stat : Nat → AreaStat) (it : MdbItem) : Nat → AreaStat :=
  Function.update stat it.area
    { stat it.area with
      dataSize := (stat it.area).dataSize - UInt64.ofNat (Store.itemSize it)
      spaceUsage := (stat it.area).spaceUsage - UInt64.ofNat it.itemId.slabSize.toNat
      itemCount := (stat it.area).itemCount - 1 }

/-- The statistics of the areas with an item more. -/
def statAdd (stat : Nat → AreaStat) (it : MdbItem) : Nat → AreaStat :=
  Function.update stat it.area
    { stat it.area with
      dataSize := (stat it.area).dataSize + UInt64.ofNat (Store.itemSize it)
      spaceUsage := (stat it.area).spaceUsage + UInt64.ofNat it.itemId.slabSize.toNat
      itemCount := (stat it.area).itemCount + 1 }

namespace Store

variable {s s' : Store} {g g' : Ledger} {live live' : ItemId → Prop} {i j k : Nat} {x y : ItemId}
  {a : Addr}

theorem areaStat_dropStat : (s.dropStat a).areaStat = statDrop s.areaStat (s.mem.item a) := rfl

theorem areaStat_addStat : (s.addStat a).areaStat = statAdd s.areaStat (s.mem.item a) := rfl

/-- The flags and the links of an item do not count. -/
theorem statDrop_congr {stat : Nat → AreaStat} {it it' : MdbItem} (harea : it'.area = it.area)
    (hsize : itemSize it' = itemSize it) (hslab : it'.itemId.slabSize = it.itemId.slabSize) :
    statDrop stat it' = statDrop stat it := by
  unfold statDrop
  rw [harea, hsize, hslab]

theorem statAdd_congr {stat : Nat → AreaStat} {it it' : MdbItem} (harea : it'.area = it.area)
    (hsize : itemSize it' = itemSize it) (hslab : it'.itemId.slabSize = it.itemId.slabSize) :
    statAdd stat it' = statAdd stat it := by
  unfold statAdd
  rw [harea, hsize, hslab]

theorem itemSize_congr {it it' : MdbItem} (h : it'.body = it.body) :
    itemSize it' = itemSize it := by
  have hkey : it'.keyLen = it.keyLen := (congrArg MdbItem.keyLen h :)
  have hlen : it'.dataLen = it.dataLen := (congrArg MdbItem.dataLen h :)
  unfold itemSize
  rw [hkey, hlen]

/-! # Small changes -/

/-- The statistics and the times of the areas do not matter. -/
theorem Kept.restat (h : s.Kept g live) (areaStat : Nat → AreaStat)
    (areaTimestamp : Nat → UInt32) : ({ s with areaStat, areaTimestamp } : Store).Kept g live :=
  ⟨⟨h.count_eq, h.shape_eq, h.slabId_eq, h.books, h.apart⟩, h.listed, h.area_lt, h.chained,
    h.inUse, h.whole, h.keys, h.unlinked⟩

theorem Kept.congr_live (h : s.Kept g live) (hlive : ∀ x, live' x ↔ live x) : s.Kept g live' := by
  rwa [show live' = live from funext fun x => propext (hlive x)]

theorem Settled.restat (h : s.Settled g) (areaStat : Nat → AreaStat)
    (areaTimestamp : Nat → UInt32) : ({ s with areaStat, areaTimestamp } : Store).Settled g :=
  ⟨h.toKept.restat areaStat areaTimestamp, h.area_eq, h.blank⟩

/-- What is written into an item that is not in use does not matter, but for its id and its
links. -/
theorem Kept.scrub (h : s.Kept g live) {f : MdbItem → MdbItem} (ha : ∀ x, g.InUse x → a ≠ x.addr)
    (hf : ∀ it, (f it).hNext = it.hNext ∧ (f it).itemId = it.itemId ∧ (f it).prev = it.prev ∧
      (f it).next = it.next) :
    (s.setItem a f).Kept g live := by
  have hlink : ∀ b, ((s.setItem a f).mem.item b).hNext = (s.mem.item b).hNext ∧
      ((s.setItem a f).mem.item b).itemId = (s.mem.item b).itemId ∧
      ((s.setItem a f).mem.item b).prev = (s.mem.item b).prev ∧
      ((s.setItem a f).mem.item b).next = (s.mem.item b).next := by
    intro b
    rw [mem_setItem, Memory.item_setItem]
    split
    · next heq =>
      rw [heq]
      exact hf _
    · exact ⟨rfl, rfl, rfl, rfl⟩
  have hitem : ∀ x, g.InUse x → (s.setItem a f).mem.item x.addr = s.mem.item x.addr :=
    fun x hx => Memory.item_setItem_ne (ha x hx).symm
  have hpaged : (s.setItem a f).Paged g := by
    refine ⟨h.count_eq, h.shape_eq, h.slabId_eq, fun i hi => ?_, h.apart⟩
    refine ⟨(h.books i hi).pool, fun p hp => ?_, ?_⟩
    · apply ((h.books i hi).stock p hp).congr
      · rfl
      · rfl
      · rfl
      · rfl
      · rfl
      · exact fun y _ => (hlink y.addr).1
      · exact fun y _ => (hlink y.addr).2.1
      · intro y _
        rw [slab, (hlink y.addr).2.1]
        rfl
    · apply (h.books i hi).filed.congr
      exact fun q _ => .of_eq rfl
  refine ⟨hpaged, fun i hi => ?_, h.area_lt, ?_, h.inUse, fun x hx => ?_, fun x y hx hy heq => ?_,
    h.unlinked.congr (fun b _ => (hlink b).2.2.1) fun b _ => (hlink b).2.2.2⟩
  · apply (h.listed i hi).congr
    · exact fun y hy => congrArg MdbItem.next (hitem y (Ledger.inUse_of hi hy))
    · exact fun y hy => congrArg MdbItem.prev (hitem y (Ledger.inUse_of hi hy))
    · exact fun _ _ => rfl
    · rfl
    · rfl
    · exact fun _ => Iff.rfl
  · apply h.chained.congr
    · intro y _
      unfold chainNext
      rw [(hlink y.addr).1]
    · intro y hy
      unfold keyOf
      rw [hitem y (h.inUse y hy)]
      rfl
    · exact fun _ => rfl
    · exact fun _ => Iff.rfl
  · rw [hitem x (h.inUse x hx)]
    exact h.whole x hx
  · unfold keyOf at heq
    rw [hitem x (h.inUse x hx), hitem y (h.inUse y hy)] at heq
    exact h.keys x y hx hy heq

/-! # Removing an item -/

/-- `s'` is `s` without the item `x`. -/
structure Removed (s s' : Store) (g g' : Ledger) (x : ItemId) : Prop where
  inUse : g.InUse x
  given : g.Given g' x
  settled : s'.Settled g'
  body_eq : ∀ y, g'.InUse y → (s'.mem.item y.addr).body = (s.mem.item y.addr).body
  areaStat_eq : s'.areaStat = statDrop s.areaStat (s.mem.item x.addr)
  areaTimestamp_eq : s'.areaTimestamp = s.areaTimestamp
  itemCount_eq : ∀ j, (s'.slabs j).itemCount = (s.slabs j).itemCount
  getBucketIndex_eq : s'.getBucketIndex = s.getBucketIndex
  totalPages_eq : s'.mem.pool.totalPages = s.mem.pool.totalPages
  repaged : g.Repaged g' s.mem.pool s'.mem.pool x.slabId.toNat x.pageId.toNat

/-- `__remove` takes an item away. -/
theorem Settled.removeItem (h : s.Settled g) (hx : g.InUse x) :
    ∃ s' g', s.removeItem x.addr = some s' ∧ s.Removed s' g g' x := by
  have hdropped : (s.dropStat x.addr).Kept g g.InUse := h.toKept.restat _ s.areaTimestamp
  obtain ⟨s₂, hremove, hre, hkept₂⟩ := hdropped.remove hx
  have hbody₂ : ∀ a, (s₂.mem.item a).body = (s.mem.item a).body := hre.body_eq
  -- the flags are cleared
  generalize hs₃ : (s₂.setItem x.addr fun it => { it with itemId := it.itemId.clearFlags }) = s₃
  have hkept₃ : s₃.Kept g fun y => g.InUse y ∧ y ≠ x := by
    rw [← hs₃]
    exact hkept₂.write hx (fun _ => ⟨rfl, rfl, rfl⟩) rfl fun hlive => absurd rfl hlive.2
  have hbody₃ : ∀ a, a ≠ x.addr → (s₃.mem.item a).body = (s.mem.item a).body := by
    intro a ha
    rw [← hs₃, mem_setItem, Memory.item_setItem_ne ha, hbody₂]
  have hself₃ : s₃.mem.item x.addr =
      { s₂.mem.item x.addr with itemId := (s₂.mem.item x.addr).itemId.clearFlags } := by
    rw [← hs₃, mem_setItem, Memory.item_setItem_self]
  have hid₃ : (s₃.mem.item x.addr).itemId = x := by
    rw [hself₃, MdbItem.itemId_congr (hbody₂ x.addr)]
    exact h.placed.item_id x hx
  have harea₃ : (s₃.mem.item x.addr).area = g.area x := by
    rw [← h.area_eq x hx, ← MdbItem.area_congr (hbody₂ x.addr), hself₃]
    rfl
  have hfades₃ : s.mem.Fades s₃.mem := by
    have hfades₂ : s.mem.Fades s₂.mem := .of_eq fun a => (congrArg MdbItem.exptime (hbody₂ a) :)
    rw [← hs₃, mem_setItem]
    exact hfades₂.trans (.setItem (Or.inl rfl))
  have hpool₃ : s₃.mem.pool = s.mem.pool := by
    rw [← hs₃]
    exact hre.within.pool_eq
  obtain ⟨i, hi, hxi⟩ := hx
  have hx := Ledger.inUse_of hi hxi
  obtain ⟨sl, g', hfree, hgiven, hkept₄, hcount, hfades₄, hbody₄, htotal₄, hrepaged₄⟩ :=
    hkept₃.freeItem hi hxi (fun hlive => hlive.2 rfl) hid₃ harea₃
  have hslab : (s₃.mem.item x.addr).itemId.slabId.toNat = i := by rw [hid₃, h.slab_eq hi hxi]
  have hfreeItem : s₃.freeItem x.addr = some (s₃.setSlab i sl) := by
    unfold Store.freeItem
    simp only [hslab]
    rw [if_pos (hkept₃.count_eq ▸ hi), hfree]
    rfl
  have hout : ∀ y, g'.InUse y → y.addr ≠ x.addr := by
    intro y hy heq
    obtain ⟨hy, hyx⟩ := hgiven.inUse.mp hy
    exact hyx (h.placed.apart y x hy hx heq)
  have hkept₅ := hkept₄.scrub (a := x.addr)
    (f := fun it =>
      { it with exptime := 0, dataLen := 0, keyLen := 0, version := 0, updateTime := 0 })
    (fun y hy => (hout y hy).symm) fun _ => ⟨rfl, rfl, rfl, rfl⟩
  have hremoveItem : s.removeItem x.addr = some ((s₃.setSlab i sl).setItem x.addr fun it =>
      { it with exptime := 0, dataLen := 0, keyLen := 0, version := 0, updateTime := 0 }) := by
    unfold Store.removeItem
    simp only [hremove, Option.bind_eq_bind, Option.bind_some, hs₃, hfreeItem]
  generalize hs₅ : ((s₃.setSlab i sl).setItem x.addr fun it =>
    { it with exptime := 0, dataLen := 0, keyLen := 0, version := 0, updateTime := 0 }) = s₅ at *
  have hbody₅ : ∀ y, g'.InUse y → (s₅.mem.item y.addr).body = (s.mem.item y.addr).body := by
    intro y hy
    rw [← hs₅, mem_setItem, Memory.item_setItem_ne (hout y hy), mem_setSlab,
      hbody₄ y (hgiven.inUse.mp hy).1, hbody₃ y.addr (hout y hy)]
  refine ⟨s₅, g', hremoveItem, hx, hgiven, ⟨hkept₅.congr_live fun y => hgiven.inUse, fun y hy => ?_,
    fun a ha => ?_⟩, hbody₅, ?_, ?_, fun j => ?_, ?_, ?_, ?_⟩
  · rw [MdbItem.area_congr (hbody₅ y hy), hgiven.area_eq]
    exact h.area_eq y (hgiven.inUse.mp hy).1
  · rcases eq_or_ne a x.addr with rfl | hax
    · rw [← hs₅, mem_setItem, Memory.item_setItem_self]
    · rw [← hs₅, mem_setItem, Memory.item_setItem_ne hax, mem_setSlab]
      apply (hfades₃.trans hfades₄).zero
      apply h.blank
      rintro y hy rfl
      have hyx : y ≠ x := by
        rintro rfl
        exact hax rfl
      exact ha y (hgiven.inUse.mpr ⟨hy, hyx⟩) rfl
  · rw [← hs₅, ← hs₃, ← areaStat_dropStat]
    change s₂.areaStat = _
    rw [hre.store_eq]
  · rw [← hs₅, ← hs₃]
    change s₂.areaTimestamp = _
    rw [hre.store_eq]
    rfl
  · have hslabs : s₃.slabs = s.slabs := by
      rw [← hs₃]
      exact hre.slabs_eq
    rw [← hs₅]
    change ((s₃.setSlab i sl).slabs j).itemCount = _
    rcases eq_or_ne j i with rfl | hji
    · rw [slabs_setSlab_self, hcount, hslabs]
    · rw [slabs_setSlab_ne hji, hslabs]
  · rw [← hs₅, ← hs₃]
    exact hre.getBucketIndex_eq
  · rw [← hs₅, ← hpool₃]
    exact htotal₄
  · rw [← hs₅, h.slab_eq hi hxi, ← hpool₃]
    exact hrepaged₄

/-! # Putting an item -/

section

variable {key value : DataEntry} {version : UInt16} {expired : Int} {crrntTime evictTime : UInt32}
  {slot : MdbItem}

/-- What is written into an item that has been got: the key and the value, and nothing that says
where the item lies or what it is linked with. -/
structure Fills (f : MdbItem → MdbItem) (key value : List UInt8) : Prop where
  links : ∀ it, (f it).hNext = it.hNext ∧ (f it).prev = it.prev ∧ (f it).next = it.next
  place : ∀ it, (f it).itemId.clearFlags = it.itemId.clearFlags
  keyLen : ∀ it, (f it).keyLen = BitVec.ofNat 12 key.length
  dataLen : ∀ it, (f it).dataLen = BitVec.ofNat 20 value.length
  data : ∀ it, (f it).data = key.take (f it).keyLen.toNat ++ value.take (f it).dataLen.toNat

namespace Fills

variable {f : MdbItem → MdbItem} {key value : List UInt8}

theorem toNat_keyLen (h : Fills f key value) (hkey : key.length < 4096) :
    (f slot).keyLen.toNat = key.length := by
  rw [h.keyLen]
  exact (BitVec.toNat_ofNat ..).trans (Nat.mod_eq_of_lt hkey)

theorem toNat_dataLen (h : Fills f key value) (hvalue : value.length < 2 ^ 20) :
    (f slot).dataLen.toNat = value.length := by
  rw [h.dataLen]
  exact (BitVec.toNat_ofNat ..).trans (Nat.mod_eq_of_lt hvalue)

theorem data_eq (h : Fills f key value) (hkey : key.length < 4096)
    (hvalue : value.length < 2 ^ 20) : (f slot).data = key ++ value := by
  rw [h.data, h.toNat_keyLen hkey, h.toNat_dataLen hvalue, List.take_length, List.take_length]

/-- What is written is read: the key. -/
theorem key_eq (h : Fills f key value) (hkey : key.length < 4096) : (f slot).key = key := by
  unfold MdbItem.key
  rw [h.data, h.toNat_keyLen hkey, List.take_length, List.take_left]

/-- What is written is read: the value. -/
theorem value_eq (h : Fills f key value) (hkey : key.length < 4096)
    (hvalue : value.length < 2 ^ 20) : (f slot).value = value := by
  unfold MdbItem.value
  rw [h.data_eq hkey hvalue, h.toNat_keyLen hkey, h.toNat_dataLen hvalue, List.drop_left,
    List.take_length]

end Fills

theorem fills_fillItem : Fills (fun it => fillItem it key value version expired crrntTime) key.data
    value.data :=
  ⟨fun _ => ⟨rfl, rfl, rfl⟩, fun _ => rfl, fun _ => rfl, fun _ => rfl, fun _ => rfl⟩

theorem key_fillItem (hkey : key.data.length < 4096) :
    (fillItem slot key value version expired crrntTime).key = key.data :=
  fills_fillItem.key_eq hkey

theorem value_fillItem (hkey : key.data.length < 4096) (hvalue : value.data.length < 2 ^ 20) :
    (fillItem slot key value version expired crrntTime).value = value.data :=
  fills_fillItem.value_eq hkey hvalue

theorem keyArea_append {l m : List UInt8} (hl : 2 ≤ l.length) : keyArea (l ++ m) = keyArea l := by
  match l, hl with
  | _ :: _ :: _, _ => rfl

/-- The area of an item is that of its key. -/
theorem area_eq_keyArea {it : MdbItem} {size : Nat} (h : it.Whole size) :
    it.area = keyArea it.key := by
  have hlen : 2 ≤ it.key.length := by
    rw [h.length_key]
    exact h.two_le
  have hdata : it.key ++ it.data.drop it.keyLen.toNat = it.data := List.take_append_drop ..
  unfold MdbItem.area
  rw [← hdata, keyArea_append hlen]

theorem Fills.area_eq {f : MdbItem → MdbItem} {key value : List UInt8} (h : Fills f key value)
    (htwo : 2 ≤ key.length) (hkey : key.length < 4096) (hvalue : value.length < 2 ^ 20) :
    (f slot).area = keyArea key := by
  unfold MdbItem.area
  rw [h.data_eq hkey hvalue, keyArea_append htwo]

theorem Fills.whole {f : MdbItem → MdbItem} {key value : List UInt8} (h : Fills f key value)
    (htwo : 2 ≤ key.length) (hkey : key.length < 4096) (hvalue : value.length < 2 ^ 20) {size : Nat}
    (hfits : itemHeaderSize + key.length + value.length ≤ size) : (f slot).Whole size := by
  refine ⟨?_, ?_, ?_⟩
  · rw [h.toNat_keyLen hkey]
    exact htwo
  · rw [h.data_eq hkey hvalue, h.toNat_keyLen hkey, h.toNat_dataLen hvalue, List.length_append]
  · rw [h.toNat_keyLen hkey, h.toNat_dataLen hvalue]
    exact hfits

variable {f : MdbItem → MdbItem} {l m : List UInt8}

/-- An item in use that is not in the table is written, joins it and is counted. -/
theorem Kept.fill (h : s.Kept g live) (hx : g.InUse x) (hlive : ¬ live x)
    (hf : Fills f l m) (htwo : 2 ≤ l.length) (hkey : l.length < 4096) (hvalue : m.length < 2 ^ 20)
    (hfits : itemHeaderSize + l.length + m.length ≤ x.slabSize.toNat)
    (hnew : ∀ y, live y → s.keyOf y ≠ l)
    (hs' : s' = ((s.setItem x.addr f).insert x.addr).addStat x.addr) :
    s'.Kept g (fun y => y = x ∨ live y) ∧
      (s'.mem.item x.addr).body = (f (s.mem.item x.addr)).body ∧
      (∀ a, a ≠ x.addr → (s'.mem.item a).body = (s.mem.item a).body) ∧
      s'.areaStat = statAdd s.areaStat (f (s.mem.item x.addr)) := by
  have hkept := h.write hx hf.links (hf.place _) fun hxl => absurd hxl hlive
  generalize hs₁ : s.setItem x.addr f = s₁ at hs' hkept
  have hself : s₁.mem.item x.addr = f (s.mem.item x.addr) := by
    rw [← hs₁, mem_setItem, Memory.item_setItem_self]
  have hother : ∀ a, a ≠ x.addr → s₁.mem.item a = s.mem.item a := by
    intro a ha
    rw [← hs₁, mem_setItem, Memory.item_setItem_ne ha]
  have hne : ∀ y, live y → y.addr ≠ x.addr := by
    intro y hy heq
    obtain rfl := h.placed.apart y x (h.inUse y hy) hx heq
    exact hlive hy
  have hkeyx : s₁.keyOf x = l := by
    unfold keyOf
    rw [hself, hf.key_eq hkey]
  obtain ⟨hre, hinsert⟩ := hkept.insert hx hlive (by
    rw [hself]
    exact hf.whole htwo hkey hvalue hfits) (by
    intro y hy
    rw [hkeyx]
    unfold keyOf
    rw [hother y.addr (hne y hy)]
    exact hnew y hy)
  rw [hs']
  refine ⟨hinsert.restat _ s₁.areaTimestamp, ?_, fun a ha => ?_, ?_⟩
  · exact (hre.body_eq x.addr).trans (congrArg MdbItem.body hself)
  · exact (hre.body_eq a).trans (congrArg MdbItem.body (hother a ha))
  · have hbody : ((s₁.insert x.addr).mem.item x.addr).body = (f (s.mem.item x.addr)).body :=
      (hre.body_eq x.addr).trans (congrArg MdbItem.body hself)
    rw [areaStat_addStat, ← hs₁]
    rw [← hs₁] at hbody
    exact statAdd_congr (MdbItem.area_congr hbody) (itemSize_congr hbody)
      (by rw [MdbItem.itemId_congr hbody])

/-- `s'` is `s` with the item `x` of slab `i`, which has been written over `slot`. -/
structure Put (s s' : Store) (g g' : Ledger) (i : Nat) (x : ItemId) (it : MdbItem) : Prop where
  count_eq : g'.count = g.count
  shape_eq : g'.shape = g.shape
  lt : i < g.count
  inSlab : g'.InSlab i x
  others : ∀ j < g.count, ∀ y, y ≠ x → (g'.InSlab j y ↔ g.InSlab j y)
  settled : s'.Settled g'
  item_eq : (s'.mem.item x.addr).body = it.body
  body_eq : ∀ y, g.InUse y → y ≠ x → (s'.mem.item y.addr).body = (s.mem.item y.addr).body
  areaTimestamp_eq : s'.areaTimestamp = s.areaTimestamp
  nonempty : ∀ j, (g.owned j).Nonempty → (g'.owned j).Nonempty
  itemCount_ne : ∀ j, j ≠ i → (s'.slabs j).itemCount = (s.slabs j).itemCount

theorem Put.inUse {it : MdbItem} (h : s.Put s' g g' i x it) : g'.InUse x :=
  ⟨i, h.count_eq ▸ h.lt, h.inSlab⟩

theorem Put.inUse_iff {it : MdbItem} (h : s.Put s' g g' i x it) :
    g'.InUse y ↔ y = x ∨ g.InUse y := by
  rcases eq_or_ne y x with rfl | hyx
  · simp [h.inUse]
  · simp only [hyx, false_or]
    constructor
    · rintro ⟨j, hj, hy⟩
      rw [h.count_eq] at hj
      exact ⟨j, hj, (h.others j hj y hyx).mp hy⟩
    · rintro ⟨j, hj, hy⟩
      exact ⟨j, h.count_eq ▸ hj, (h.others j hj y hyx).mpr hy⟩

/-- The place was free. -/
structure PutNew (s s' : Store) (g g' : Ledger) (i : Nat) (x : ItemId) (it : MdbItem) : Prop
    extends s.Put s' g g' i x it where
  fresh : ¬ g.InUse x
  areaStat_eq : s'.areaStat = statAdd s.areaStat it
  itemCount_eq : (s'.slabs i).itemCount =
    Function.update (s.slabs i).itemCount it.area ((s.slabs i).itemCount it.area + 1)

/-- The place was that of another item. -/
structure PutOver (s s' : Store) (g g' : Ledger) (i : Nat) (x : ItemId) (it : MdbItem) : Prop
    extends s.Put s' g g' i x it where
  old : g.InSlab i x
  areaStat_eq : s'.areaStat = statAdd (statDrop s.areaStat (s.mem.item x.addr)) it
  itemCount_eq : (s'.slabs i).itemCount =
    Function.update (Function.update (s.slabs i).itemCount (g.area x)
      ((s.slabs i).itemCount (g.area x) - 1)) it.area
      (Function.update (s.slabs i).itemCount (g.area x)
        ((s.slabs i).itemCount (g.area x) - 1) it.area + 1)

theorem getSlabmng_some {size : Int} (h : s.getSlabmng size = some i) :
    i < s.slabsCount ∧ size ≤ (s.slabs i).slabSize := by
  unfold getSlabmng at h
  refine ⟨List.mem_range.mp (List.mem_of_find?_eq_some h), ?_⟩
  have htest := List.find?_some h
  exact of_decide_eq_true htest

/-- Below these bounds the size of an item is the sum of its parts. -/
theorem totalSize_eq {key value : List UInt8} (hkey : key.length < 4096)
    (hvalue : value.length < 2 ^ 20) :
    totalSize key value = (key.length + value.length + itemHeaderSize : Nat) := by
  unfold totalSize itemHeaderSize
  rw [Int.bmod_eq_of_le] <;> omega

variable (s key value evictTime) in
/-- A put of the key and the value takes the place of the item at the address. -/
def Takes (a : Addr) : Prop :=
  ∃ i, s.getSlabmng (totalSize key.data value.data) = some i ∧
    (s.slab i).Ousts key.area (s.isQuotaExceed key.area) ∧
    (s.slab i).victim key.area evictTime = some a

/-- A place that was free is written. -/
theorem Settled.putNew {s₁ : Store} (h : s.Settled g) (hi : i < g.count)
    (hfresh : s.Fresh s₁ g g' i x (keyArea l)) (hf : Fills f l m) (htwo : 2 ≤ l.length)
    (hkey : l.length < 4096) (hvalue : m.length < 2 ^ 20)
    (hfits : itemHeaderSize + l.length + m.length ≤ (g.shape i).slabSize)
    (hnew : ∀ y, g.InUse y → s.keyOf y ≠ l)
    (hs' : s' = ((s₁.setItem x.addr f).insert x.addr).addStat x.addr) :
    s.PutNew s' g g' i x (f (s₁.mem.item x.addr)) := by
  have htaken := hfresh.taken
  have hinSlab : g'.InSlab i x := (htaken.inSlab i hi x).mpr (Or.inl ⟨rfl, rfl⟩)
  have hx : g'.InUse x := (htaken.inUse hi).mpr (Or.inl rfl)
  obtain ⟨sl, hs₁⟩ := hfresh.store_eq
  have hsize : x.slabSize.toNat = (g.shape i).slabSize := by
    rw [Paged.size_eq hinSlab, htaken.shape_eq]
  obtain ⟨hkept, hself, hother, hstat⟩ := hfresh.kept.fill hx htaken.fresh hf htwo hkey hvalue
    (hsize ▸ hfits) (fun y hy => by
      unfold keyOf
      rw [MdbItem.key_congr (hfresh.body_eq y hy)]
      exact hnew y hy) hs'
  have hne : ∀ y, g'.InUse y → y ≠ x → y.addr ≠ x.addr :=
    fun y hy hyx heq => hyx (hfresh.kept.placed.apart y x hy hx heq)
  have hbody : ∀ y, g.InUse y → y ≠ x → (s'.mem.item y.addr).body = (s.mem.item y.addr).body := by
    intro y hy hyx
    rw [hother y.addr (hne y ((htaken.inUse hi).mpr (Or.inr hy)) hyx), hfresh.body_eq y hy]
  have harea : (f (s₁.mem.item x.addr)).area = keyArea l := hf.area_eq htwo hkey hvalue
  have hfixed : s'.areaTimestamp = s.areaTimestamp ∧ s'.slabs = s₁.slabs := by
    rw [hs', hs₁]
    exact ⟨rfl, rfl⟩
  refine ⟨⟨htaken.count_eq, htaken.shape_eq, hi, hinSlab, fun j hj y hyx => ?_,
    ⟨?_, fun y hy => ?_, fun a ha => ?_⟩,
    hself, hbody, hfixed.1, htaken.nonempty, fun j hji => ?_⟩, htaken.fresh, ?_, ?_⟩
  · rw [htaken.inSlab j hj]
    simp [hyx]
  · exact hkept.congr_live fun y => htaken.inUse hi
  · rw [htaken.area_eq, Function.update_apply]
    split
    · next hyx => rw [hyx, MdbItem.area_congr hself, harea]
    · next hyx =>
      have hy' := ((htaken.inUse hi).mp hy).resolve_left hyx
      rw [MdbItem.area_congr (hbody y hy' hyx), h.area_eq y hy']
  · have hexp : (s'.mem.item a).exptime = (s₁.mem.item a).exptime :=
      (congrArg MdbItem.exptime (hother a (ha x hx)) :)
    rw [hexp]
    apply hfresh.fades.zero
    exact h.blank a fun y hy => ha y ((htaken.inUse hi).mpr (Or.inr hy))
  · rw [hfixed.2, hs₁, slabs_setSlab_ne hji]
  · rw [hstat, hs₁]
    rfl
  · rw [hfixed.2, harea]
    exact hfresh.itemCount_eq

/-- An item that loses its place leaves the table. -/
theorem Settled.dropEvicted {s₁ : Store} (h : s.Settled g) (hx : g.InUse x)
    (hev : s.Evicted s₁ g i x k) :
    ∃ s₂, (s₁.dropStat x.addr).remove x.addr = some s₂ ∧
      s₂.Kept (g.move x k) (fun y => g.InUse y ∧ y ≠ x) ∧
      (∀ a, (s₂.mem.item a).body = (s₁.mem.item a).body) ∧
      s₂.areaStat = statDrop s.areaStat (s.mem.item x.addr) ∧
      s₂.areaTimestamp = s.areaTimestamp ∧ s₂.slabs = s₁.slabs := by
  obtain ⟨sl, hs₁⟩ := hev.store_eq
  have hdropped : (s₁.dropStat x.addr).Kept (g.move x k) g.InUse :=
    hev.kept.restat _ s₁.areaTimestamp
  obtain ⟨s₂, hremove, hre, hkept⟩ := hdropped.remove hx
  refine ⟨s₂, hremove, hkept, hre.body_eq, ?_, ?_, hre.slabs_eq⟩
  · have hstat : s₂.areaStat = (s₁.dropStat x.addr).areaStat := by rw [hre.store_eq]
    have hstat₁ : s₁.areaStat = s.areaStat := by
      rw [hs₁]
      rfl
    have hdata : (s₁.mem.item x.addr).data = (s.mem.item x.addr).data :=
      (congrArg MdbItem.data hev.self_eq :)
    have hkeyLen : (s₁.mem.item x.addr).keyLen = (s.mem.item x.addr).keyLen :=
      (congrArg MdbItem.keyLen hev.self_eq :)
    have hdataLen : (s₁.mem.item x.addr).dataLen = (s.mem.item x.addr).dataLen :=
      (congrArg MdbItem.dataLen hev.self_eq :)
    have hid : (s.mem.item x.addr).itemId.clearFlags = x := h.placed.item_id x hx
    rw [hstat, areaStat_dropStat, hstat₁]
    apply statDrop_congr
    · unfold MdbItem.area
      rw [hdata]
    · unfold itemSize
      rw [hkeyLen, hdataLen]
    · rw [hev.item_id]
      exact (congrArg ItemId.slabSize hid).symm
  · rw [hre.store_eq, hs₁]
    rfl

/-- The place of another item is written. -/
theorem Settled.putOver {s₁ s₂ : Store} (h : s.Settled g) (hi : i < g.count)
    (hev : s.Evicted s₁ g i x (keyArea l)) (hf : Fills f l m) (htwo : 2 ≤ l.length)
    (hkey : l.length < 4096) (hvalue : m.length < 2 ^ 20)
    (hfits : itemHeaderSize + l.length + m.length ≤ (g.shape i).slabSize)
    (hnew : ∀ y, g.InUse y → s.keyOf y ≠ l)
    (hremove : (s₁.dropStat x.addr).remove x.addr = some s₂)
    (hs' : s' = ((s₂.setItem x.addr f).insert x.addr).addStat x.addr) :
    s.PutOver s' g (g.move x (keyArea l)) i x (f (s₂.mem.item x.addr)) := by
  have hx := Ledger.inUse_of hi hev.inSlab
  obtain ⟨s₂', hremove', hkept₂, hbody₂, hstat₂, htime₂, hslabs₂⟩ := h.dropEvicted hx hev
  obtain rfl := Option.some.inj (hremove.symm.trans hremove')
  obtain ⟨sl, hs₁⟩ := hev.store_eq
  have hne : ∀ y, g.InUse y → y ≠ x → y.addr ≠ x.addr :=
    fun y hy hyx heq => hyx (h.placed.apart y x hy hx heq)
  have hold : ∀ y, g.InUse y → y ≠ x → (s₂.mem.item y.addr).body = (s.mem.item y.addr).body :=
    fun y hy hyx => (hbody₂ y.addr).trans (hev.body_eq y hy hyx)
  have hexp₂ : ∀ a, (s₂.mem.item a).exptime = (s₁.mem.item a).exptime :=
    fun a => (congrArg MdbItem.exptime (hbody₂ a) :)
  have hsize : x.slabSize.toNat = (g.shape i).slabSize := Paged.size_eq hev.inSlab
  obtain ⟨hkept, hself, hother, hstat⟩ := hkept₂.fill hx (fun hlive => hlive.2 rfl) hf htwo hkey
    hvalue (hsize ▸ hfits) (fun y hy => by
      unfold keyOf
      rw [MdbItem.key_congr (hold y hy.1 hy.2)]
      exact hnew y hy.1) hs'
  have hbody : ∀ y, g.InUse y → y ≠ x →
      (s'.mem.item y.addr).body = (s.mem.item y.addr).body := by
    intro y hy hyx
    rw [hother y.addr (hne y hy hyx), hold y hy hyx]
  have harea : (f (s₂.mem.item x.addr)).area = keyArea l := hf.area_eq htwo hkey hvalue
  have hfixed : s'.areaTimestamp = s.areaTimestamp ∧ s'.slabs = s₁.slabs := by
    rw [hs', ← htime₂, ← hslabs₂]
    exact ⟨rfl, rfl⟩
  refine ⟨⟨rfl, rfl, hi, hev.inSlab, fun j hj y hyx => Iff.rfl,
    ⟨?_, fun y hy => ?_, fun a ha => ?_⟩, hself, hbody, hfixed.1, fun j hj => hj,
    fun j hji => ?_⟩, hev.inSlab, ?_, ?_⟩
  · apply hkept.congr_live
    intro y
    rw [Ledger.inUse_move]
    rcases eq_or_ne y x with rfl | hyx
    · simp [hx]
    · simp [hyx]
  · change _ = Function.update g.area x (keyArea l) y
    rw [Function.update_apply]
    split
    · next hyx => rw [hyx, MdbItem.area_congr hself, harea]
    · next hyx => rw [MdbItem.area_congr (hbody y hy hyx), h.area_eq y hy]
  · have hexp : (s'.mem.item a).exptime = (s₂.mem.item a).exptime :=
      (congrArg MdbItem.exptime (hother a (ha x hx)) :)
    rw [hexp, hexp₂]
    exact hev.fades.zero (h.blank a ha)
  · rw [hfixed.2, hs₁, slabs_setSlab_ne hji]
  · rw [hstat, hstat₂]
  · rw [hfixed.2, harea]
    exact hev.itemCount_eq

/-! ## Places -/

theorem placeItem_eq : s.placeItem key value version expired crrntTime evictTime =
    (s.takePlace (totalSize key.data value.data) key.area evictTime).map fun (a, s₁) =>
      ((TAIR_RETURN_SUCCESS,
          putBack key (fillItem (s₁.mem.item a) key value version expired crrntTime)),
        ((s₁.setItem a fun it =>
          fillItem it key value version expired crrntTime).insert a).addStat a) := by
  unfold placeItem takePlace
  cases s.allocItem (totalSize key.data value.data) key.area evictTime with
  | none => rfl
  | some r =>
    obtain ⟨item, s₁⟩ := r
    cases item with
    | none => rfl
    | some place =>
      obtain ⟨a, type⟩ := place
      simp only [Option.bind_eq_bind, Option.bind_some]
      rcases eq_or_ne type .new with rfl | htype
      · simp only [if_true, Option.map_some, mem_setItem, Memory.item_setItem_self]
      · simp only [if_neg htype]
        cases (s₁.dropStat a).remove a with
        | none => rfl
        | some s₂ =>
          simp only [Option.bind_some, Option.map_some, mem_setItem, Memory.item_setItem_self]

variable (evictTime) in
/-- The place got was free, or it was that of another item. Else there is no such area, no slab
has items of the size, or the slab has no page. -/
theorem Settled.takePlace (h : s.Settled g) (size : Int) (k : Nat) :
    (∃ i x s₁ g', s.takePlace size k evictTime = some (x.addr, s₁) ∧
      s.getSlabmng size = some i ∧ i < g.count ∧ k < TAIR_MAX_AREA_COUNT ∧
      (s₁.mem.item x.addr).itemId = x ∧ (s₁.mem.item x.addr).exptime = 0 ∧
      ¬ (s.slab i).Ousts k (s.isQuotaExceed k) ∧ s.Fresh s₁ g g' i x k) ∨
    (∃ i x s₁ s₂, s.takePlace size k evictTime = some (x.addr, s₂) ∧
      s.getSlabmng size = some i ∧ i < g.count ∧ k < TAIR_MAX_AREA_COUNT ∧
      (s₂.mem.item x.addr).itemId = x ∧
      (s₂.mem.item x.addr).exptime = (s.mem.item x.addr).exptime ∧
      (s.slab i).Ousts k (s.isQuotaExceed k) ∧ (s.slab i).victim k evictTime = some x.addr ∧
      s.Evicted s₁ g i x k ∧ (s₁.dropStat x.addr).remove x.addr = some s₂) ∨
    (s.takePlace size k evictTime = none ∧
      (k < TAIR_MAX_AREA_COUNT → ∀ i, s.getSlabmng size = some i → g.owned i = ∅)) := by
  unfold Store.takePlace Store.allocItem
  cases hslab : s.getSlabmng size with
  | none =>
    right; right
    exact ⟨rfl, fun _ i hi => absurd hi (by simp)⟩
  | some i =>
    obtain ⟨hi, -⟩ := getSlabmng_some hslab
    rw [h.count_eq] at hi
    simp only [Option.some.injEq]
    rcases Nat.lt_or_ge k TAIR_MAX_AREA_COUNT with hk | hk
    swap
    · right; right
      unfold Slab.allocItem
      rw [if_neg (not_lt.mpr hk)]
      exact ⟨rfl, fun hk' => absurd hk' (not_lt.mpr hk)⟩
    rcases h.slabAlloc hi hk (s.isQuotaExceed k) evictTime with
      ⟨x, sl, g', halloc, hstay, hfresh⟩ | ⟨x, type, sl, halloc, htype, housts, hvictim, hev⟩ |
      ⟨halloc, hempty⟩
    · left
      refine ⟨i, x, s.setSlab i sl, g', ?_, rfl, hi, hk, hfresh.item_id, ?_, hstay, hfresh⟩
      · rw [halloc]
        rfl
      · apply hfresh.fades.zero
        apply h.blank
        intro y hy heq
        have hx := (hfresh.taken.inUse hi).mpr (Or.inl rfl)
        have hy' := (hfresh.taken.inUse hi).mpr (Or.inr hy)
        obtain rfl := hfresh.kept.placed.apart x y hx hy' heq
        exact hfresh.taken.fresh hy
    · right; left
      obtain ⟨s₂, hremove, -, hbody, -⟩ := h.dropEvicted (Ledger.inUse_of hi hev.inSlab) hev
      refine ⟨i, x, _, s₂, ?_, rfl, hi, hk, ?_, ?_, housts, hvictim, hev, hremove⟩
      · rw [halloc]
        simp only [Option.bind_eq_bind, Option.bind_some, if_neg htype, hremove]
      · rw [MdbItem.itemId_congr (hbody x.addr)]
        exact hev.item_id
      · have hexp : (s₂.mem.item x.addr).exptime = ((s.setSlab i sl).mem.item x.addr).exptime :=
          (congrArg MdbItem.exptime (hbody x.addr) :)
        rw [hexp]
        exact (congrArg MdbItem.exptime hev.self_eq :)
    · right; right
      rw [halloc]
      refine ⟨rfl, ?_⟩
      rintro - j rfl
      exact hempty

variable (version expired crrntTime evictTime) in
/-- The second part of a put writes the item into a place that was free, or into that of
another item. Else there is no such area, no slab has items of the size, or the slab has
no page. -/
theorem Settled.placeItem (h : s.Settled g) (htwo : 2 ≤ key.data.length)
    (hkey : key.data.length < 4096) (hvalue : value.data.length < 2 ^ 20)
    (harea : key.area = keyArea key.data) (hnew : ∀ y, g.InUse y → s.keyOf y ≠ key.data) :
    (∃ i x slot s' g', slot.itemId = x ∧ slot.exptime = 0 ∧
      (∀ a, ¬ s.Takes key value evictTime a) ∧
      s.placeItem key value version expired crrntTime evictTime =
        some ((TAIR_RETURN_SUCCESS,
          putBack key (fillItem slot key value version expired crrntTime)), s') ∧
      s.PutNew s' g g' i x (fillItem slot key value version expired crrntTime)) ∨
    (∃ i x slot s' g', slot.itemId = x ∧ slot.exptime = (s.mem.item x.addr).exptime ∧
      (∀ a, s.Takes key value evictTime a ↔ a = x.addr) ∧
      s.placeItem key value version expired crrntTime evictTime =
        some ((TAIR_RETURN_SUCCESS,
          putBack key (fillItem slot key value version expired crrntTime)), s') ∧
      s.PutOver s' g g' i x (fillItem slot key value version expired crrntTime)) ∨
    (s.placeItem key value version expired crrntTime evictTime = none ∧
      (key.area < TAIR_MAX_AREA_COUNT →
        ∀ i, s.getSlabmng (totalSize key.data value.data) = some i → g.owned i = ∅)) := by
  have htotal := totalSize_eq hkey hvalue
  have hfits : ∀ i, i < g.count → s.getSlabmng (totalSize key.data value.data) = some i →
      itemHeaderSize + key.data.length + value.data.length ≤ (g.shape i).slabSize := by
    intro i hi hslab
    have hsize := (getSlabmng_some hslab).2
    rw [htotal] at hsize
    rw [← h.shape_eq i hi]
    omega
  rw [placeItem_eq]
  unfold Takes
  rcases h.takePlace evictTime (totalSize key.data value.data) key.area with
    ⟨i, x, s₁, g', htake, hslab, hi, -, hid, hexp, hstay, hfresh⟩ |
    ⟨i, x, s₁, s₂, htake, hslab, hi, -, hid, hexp, housts, hvictim, hev, hremove⟩ | ⟨htake, hempty⟩
  · left
    rw [harea] at hfresh
    refine ⟨i, x, s₁.mem.item x.addr, _, g', hid, hexp, ?_, ?_,
      h.putNew hi hfresh fills_fillItem htwo hkey hvalue (hfits i hi hslab) hnew rfl⟩
    · rintro a ⟨j, hj, housts, -⟩
      rw [hslab, Option.some.injEq] at hj
      exact hstay (hj ▸ housts)
    · rw [htake]
      rfl
  · right; left
    rw [harea] at hev
    refine ⟨i, x, s₂.mem.item x.addr, _, _, hid, hexp, fun a => ?_, ?_,
      h.putOver hi hev fills_fillItem htwo hkey hvalue (hfits i hi hslab) hnew hremove rfl⟩
    · constructor
      · rintro ⟨j, hj, -, ha⟩
        rw [hslab, Option.some.injEq] at hj
        rw [← hj, hvictim] at ha
        exact (Option.some.inj ha).symm
      · rintro rfl
        exact ⟨i, hslab, housts, hvictim⟩
    · rw [htake]
      rfl
  · right; right
    rw [htake]
    exact ⟨rfl, hempty⟩

end

end Store

end Mdb
