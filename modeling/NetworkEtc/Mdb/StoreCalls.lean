-- SUMMARY: The calls of the store, each made of changes: get, put, remove, lookup.
import NetworkEtc.Mdb.Changes

/-!
# The calls of the store

What each call does to a settled store: which item it finds, what it answers, and which
changes it makes.
-/

namespace Mdb

open Library

namespace Store

variable {s s' : Store} {g g' : Ledger} {i j k : Nat} {x y : ItemId} {a : Addr}

/-- Only the order of the lists has changed. -/
structure Touched (s s' : Store) (g : Ledger) : Prop where
  settled : s'.Settled g
  body_eq : ∀ a, (s'.mem.item a).body = (s.mem.item a).body
  areaStat_eq : s'.areaStat = s.areaStat
  areaTimestamp_eq : s'.areaTimestamp = s.areaTimestamp
  itemCount_eq : ∀ j, (s'.slabs j).itemCount = (s.slabs j).itemCount

/-- `s'` is `s` without the key. -/
inductive Dropped (s : Store) (g : Ledger) (key : List UInt8) : Store → Ledger → Prop where
  | absent (hnone : ∀ y, g.InUse y → s.keyOf y ≠ key) : Dropped s g key s g
  | removed {s' : Store} {g' : Ledger} {x : ItemId} (hkey : s.keyOf x = key)
      (h : s.Removed s' g g' x) : Dropped s g key s' g'

/-- `update_item` on an item in use. -/
theorem Settled.updateItem (h : s.Settled g) (hx : g.InUse x) :
    ∃ s', s.updateItem x.addr = some s' ∧ s.Touched s' g := by
  obtain ⟨i, hi, hxi⟩ := hx
  have hx := Ledger.inUse_of hi hxi
  have harea := h.area_eq x hx
  have hslab : (s.mem.item x.addr).itemId.slabId.toNat = i := by
    have hid : (s.mem.item x.addr).itemId.clearFlags = x := h.placed.item_id x hx
    have hslabId : (s.mem.item x.addr).itemId.clearFlags.slabId = x.slabId :=
      congrArg ItemId.slabId hid
    rw [← h.slab_eq hi hxi, ← hslabId]
    rfl
  obtain ⟨sl, hupdate, hrel, -, hcount, hkept⟩ := h.toKept.relink hi hxi harea (h.area_lt x hx)
  have hg : g.move x (g.area x) = g := by
    unfold Ledger.move
    rw [Function.update_eq_self]
  rw [hg] at hkept
  refine ⟨s.setSlab i sl, ?_, ⟨hkept, fun y hy => ?_, fun a ha => ?_⟩, hrel.body_eq, rfl, rfl,
    fun j => ?_⟩
  · unfold Store.updateItem
    simp only [hslab, harea, hupdate, Option.bind_eq_bind, Option.bind_some]
  · exact (MdbItem.area_congr (hrel.body_eq y.addr)).trans (h.area_eq y hy)
  · rw [mem_setSlab, hrel.exptime_eq]
    exact h.blank a ha
  · rcases eq_or_ne j i with rfl | hji
    · rw [slabs_setSlab_self, hcount]
    · rw [slabs_setSlab_ne hji]

theorem ne_nil_of_two_le {l : List UInt8} (h : 2 ≤ l.length) : l ≠ [] := by
  rintro rfl
  exact absurd h (by decide)

section

variable {key value : DataEntry} {version : UInt16} {versionCare : Bool} {expired : Int}
  {crrntTime evictTime time : UInt32}

variable (time) in
/-- `remove_if_expired` -/
theorem Settled.removeIfExpired (h : s.Settled g) (hkey : key.data ≠ []) :
    (s.removeIfExpired key.data time = some ((false, none), s) ∧
      ∀ y, g.InUse y → s.keyOf y ≠ key.data) ∨
    ∃ x, g.InUse x ∧ s.keyOf x = key.data ∧
      ((s.isItemExpired (s.mem.item x.addr) time = true ∧ ∃ s' g',
          s.removeIfExpired key.data time = some ((true, none), s') ∧ s.Removed s' g g' x) ∨
        (s.isItemExpired (s.mem.item x.addr) time = false ∧
          s.removeIfExpired key.data time = some ((false, some x.addr), s))) := by
  unfold Store.removeIfExpired
  rcases h.toKept.find hkey with ⟨hfind, hnone⟩ | ⟨x, hx, hxkey, hfind⟩
  · rw [hfind]
    exact Or.inl ⟨rfl, hnone⟩
  · right
    rw [hfind]
    refine ⟨x, hx, hxkey, ?_⟩
    cases hexpired : s.isItemExpired (s.mem.item x.addr) time with
    | true =>
      obtain ⟨s', g', hremove, hremoved⟩ := h.removeItem hx
      refine Or.inl ⟨rfl, s', g', ?_, hremoved⟩
      simp only [Option.bind_eq_bind, Option.bind_some, hexpired, if_true, hremove]
    | false =>
      refine Or.inr ⟨rfl, ?_⟩
      simp [hexpired]

/-- What `do_get` says of the item it has found, in the key. -/
def gotKey (key : DataEntry) (it : MdbItem) : DataEntry :=
  let key := putBack key it
  { key with dataMeta := { key.dataMeta with mdate := it.updateTime } }

/-- What it says in the value. -/
def gotValue (value : DataEntry) (it : MdbItem) : DataEntry :=
  let value := value.setData it.value
  { value with
    dataMeta :=
      { value.dataMeta with
        version := it.version
        edate := it.exptime
        keysize := UInt16.ofNat it.keyLen.toNat
        valsize := it.dataLen.setWidth 24
        flag := it.itemId.itemFlags } }

variable (value time) in
/-- `do_get` finds nothing, or an item that has expired, or gives the item's value. It
fails where the key's area is not that of its first bytes. -/
theorem Settled.doGet (h : s.Settled g) (hkey : key.data ≠ []) :
    (s.doGet key value time = some ((TAIR_RETURN_DATA_NOT_EXIST, key, value), s) ∧
      ∀ y, g.InUse y → s.keyOf y ≠ key.data) ∨
    ∃ x, g.InUse x ∧ s.keyOf x = key.data ∧
      ((s.isItemExpired (s.mem.item x.addr) time = true ∧ ∃ s' g',
          s.doGet key value time = some ((TAIR_RETURN_DATA_EXPIRED, key, value), s') ∧
          s.Removed s' g g' x) ∨
        (s.isItemExpired (s.mem.item x.addr) time = false ∧
          ((key.area = keyArea key.data ∧ ∃ s',
              s.doGet key value time = some ((TAIR_RETURN_SUCCESS, gotKey key (s.mem.item x.addr),
                gotValue value (s.mem.item x.addr)), s') ∧ s.Touched s' g) ∨
            (key.area ≠ keyArea key.data ∧ s.doGet key value time = none)))) := by
  unfold Store.doGet
  rcases h.removeIfExpired time hkey with ⟨hnone, habsent⟩ |
    ⟨x, hx, hxkey, ⟨hexpired, s', g', hremove, hremoved⟩ | ⟨hfresh, hfound⟩⟩
  · rw [hnone]
    exact Or.inl ⟨rfl, habsent⟩
  · rw [hremove]
    exact Or.inr ⟨x, hx, hxkey, Or.inl ⟨hexpired, s', g', rfl, hremoved⟩⟩
  · have hitem : (s.mem.item x.addr).area = keyArea key.data := by
      rw [area_eq_keyArea (h.whole x hx), ← hxkey]
      rfl
    refine Or.inr ⟨x, hx, hxkey, Or.inr ⟨hfresh, ?_⟩⟩
    rw [hfound]
    simp only [Option.bind_eq_bind, Option.bind_some, hitem]
    split
    · next harea =>
      obtain ⟨s', hupdate, htouched⟩ := h.updateItem hx
      rw [hupdate]
      exact Or.inl ⟨harea, s', rfl, htouched⟩
    · next harea => exact Or.inr ⟨harea, rfl⟩

/-- `do_remove` finds nothing, or removes the item with the key. -/
theorem Settled.doRemove (h : s.Settled g) (hkey : key.data ≠ []) :
    ∃ code key' s' g', s.doRemove key = some ((code, key'), s') ∧
      s.Dropped g key.data s' g' := by
  unfold Store.doRemove
  rcases h.toKept.find hkey with ⟨hfind, hnone⟩ | ⟨x, hx, hxkey, hfind⟩
  · simp only [hfind, Option.bind_eq_bind, Option.bind_some]
    exact ⟨_, _, s, g, rfl, .absent hnone⟩
  · obtain ⟨s', g', hremove, hremoved⟩ := h.removeItem hx
    simp only [hfind, Option.bind_eq_bind, Option.bind_some, hremove]
    exact ⟨_, _, s', g', rfl, .removed hxkey hremoved⟩

variable (time) in
/-- `do_lookup` -/
theorem Settled.doLookup (h : s.Settled g) (hkey : key.data ≠ [])
    (harea : key.area = keyArea key.data) :
    (s.doLookup key time = some (false, s) ∧ ∀ y, g.InUse y → s.keyOf y ≠ key.data) ∨
    ∃ x, g.InUse x ∧ s.keyOf x = key.data ∧
      ((s.isItemExpired (s.mem.item x.addr) time = true ∧ ∃ s' g',
          s.doLookup key time = some (false, s') ∧ s.Removed s' g g' x) ∨
        (s.isItemExpired (s.mem.item x.addr) time = false ∧
          s.doLookup key time = some (true, s))) := by
  unfold Store.doLookup
  rw [if_pos harea]
  rcases h.toKept.find hkey with ⟨hfind, hnone⟩ | ⟨x, hx, hxkey, hfind⟩
  · rw [hfind]
    exact Or.inl ⟨rfl, hnone⟩
  · right
    rw [hfind]
    refine ⟨x, hx, hxkey, ?_⟩
    simp only [Option.bind_eq_bind, Option.bind_some]
    cases hexpired : s.isItemExpired (s.mem.item x.addr) time with
    | true =>
      obtain ⟨s', g', hremove, hremoved⟩ := h.removeItem hx
      rw [if_pos rfl, hremove]
      exact Or.inl ⟨rfl, s', g', rfl, hremoved⟩
    | false => exact Or.inr ⟨rfl, rfl⟩

variable (key value versionCare crrntTime) in
/-- A put that finds the item is refused: the item is locked, or its version is another. -/
def Refuses (s : Store) (it : MdbItem) : Prop :=
  (value.serverFlag &&& TAIR_OPERATION_UNLOCK = 0 ∧
      testFlag it.itemId.itemFlags TAIR_ITEM_FLAG_LOCKED = true) ∨
    (s.isItemExpired it crrntTime = false ∧ versionCare = true ∧ key.dataMeta.version ≠ 0 ∧
      it.version ≠ key.dataMeta.version)

variable (key value versionCare crrntTime) in
/-- The first part of a put refuses it, or removes the item with the key. -/
theorem Settled.replaceItem (h : s.Settled g) (hx : g.InUse x) :
    (Refuses key value versionCare crrntTime s (s.mem.item x.addr) ∧
      ∃ code, code ≠ TAIR_RETURN_SUCCESS ∧
        s.replaceItem x.addr key value versionCare crrntTime = some (.inl code, s)) ∨
    (¬ Refuses key value versionCare crrntTime s (s.mem.item x.addr) ∧
      ∃ version s' g', s.replaceItem x.addr key value versionCare crrntTime =
        some (.inr version, s') ∧ s.removeItem x.addr = some s' ∧ s.Removed s' g g' x) := by
  obtain ⟨s', g', hremove, hremoved⟩ := h.removeItem hx
  unfold Store.replaceItem Refuses
  simp only [hremove, Option.bind_eq_bind, Option.bind_some]
  split
  · next hlocked => exact Or.inl ⟨Or.inl hlocked, _, by decide, rfl⟩
  · next hlocked =>
    split
    · next hexpired =>
      right
      refine ⟨?_, _, s', g', rfl, rfl, hremoved⟩
      rintro (hlock | ⟨hfresh, -⟩)
      · exact hlocked hlock
      · rw [hexpired] at hfresh
        exact absurd hfresh (by decide)
    · next hfresh =>
      split
      · next hversion =>
        exact Or.inl ⟨Or.inr ⟨Bool.eq_false_iff.mpr hfresh, hversion⟩, _, by decide, rfl⟩
      · next hversion =>
        right
        refine ⟨?_, _, s', g', rfl, rfl, hremoved⟩
        rintro (hlock | ⟨-, hother⟩)
        · exact hlocked hlock
        · exact hversion hother

/-- The store without the item that has the key. -/
def dropKey (s : Store) (key : List UInt8) : Option Store := do
  match ← s.find key with
  | none => some s
  | some a => s.removeItem a

variable (value versionCare expired crrntTime evictTime) in
/-- `do_put` is refused, or goes on to its second part in a store without the key. -/
theorem Settled.doPut (h : s.Settled g) (hkey : key.data ≠ []) :
    (∃ x, g.InUse x ∧ s.keyOf x = key.data ∧
      Refuses key value versionCare crrntTime s (s.mem.item x.addr) ∧
      ∃ code, code ≠ TAIR_RETURN_SUCCESS ∧
        s.doPut key value versionCare expired crrntTime evictTime =
          some ((code, { key with area := keyArea key.data }), s)) ∨
    ∃ version s' g', s.dropKey key.data = some s' ∧ s.Dropped g key.data s' g' ∧
      (∀ x, g.InUse x → s.keyOf x = key.data →
        ¬ Refuses key value versionCare crrntTime s (s.mem.item x.addr)) ∧
      s.doPut key value versionCare expired crrntTime evictTime =
        s'.placeItem { key with area := keyArea key.data } value version
          (if expired < 0 then 0 else expired) crrntTime evictTime := by
  unfold Store.doPut dropKey
  rcases h.toKept.find hkey with ⟨hfind, hnone⟩ | ⟨x, hx, hxkey, hfind⟩
  · right
    simp only [hfind, Option.bind_eq_bind, Option.bind_some]
    exact ⟨_, s, g, rfl, .absent hnone, fun y hy heq => absurd heq (hnone y hy), rfl⟩
  · simp only [hfind, Option.bind_eq_bind, Option.bind_some]
    rcases h.replaceItem { key with area := keyArea key.data } value versionCare crrntTime hx with
      ⟨hrefuses, code, hcode, hrefused⟩ | ⟨haccepts, version, s', g', hreplace, hremove, hremoved⟩
    · rw [hrefused]
      exact Or.inl ⟨x, hx, hxkey, hrefuses, code, hcode, rfl⟩
    · rw [hreplace]
      refine Or.inr ⟨_, s', g', hremove, .removed hxkey hremoved, fun y hy heq => ?_, rfl⟩
      rw [h.keys y x hy hx (heq.trans hxkey.symm)]
      exact haccepts

end

/-! # The store without a key -/

variable {key : List UInt8}

theorem Dropped.settled (h : s.Dropped g key s' g') (hs : s.Settled g) : s'.Settled g' := by
  cases h with
  | absent _ => exact hs
  | removed _ h => exact h.settled

/-- The items with other keys stay in use. -/
theorem Dropped.inUse (h : s.Dropped g key s' g') (hs : s.Settled g) :
    g'.InUse y ↔ g.InUse y ∧ s.keyOf y ≠ key := by
  cases h with
  | absent hnone =>
    constructor
    · exact fun hy => ⟨hy, hnone y hy⟩
    · exact fun hy => hy.1
  | removed hkey h =>
    rw [h.given.inUse, ← hkey]
    constructor
    · rintro ⟨hy, hyx⟩
      exact ⟨hy, fun heq => hyx (hs.keys y _ hy h.inUse heq)⟩
    · rintro ⟨hy, hne⟩
      refine ⟨hy, ?_⟩
      rintro rfl
      exact hne rfl

theorem Dropped.body_eq (h : s.Dropped g key s' g') (hy : g'.InUse y) :
    (s'.mem.item y.addr).body = (s.mem.item y.addr).body := by
  cases h with
  | absent _ => rfl
  | removed _ h => exact h.body_eq y hy

theorem Dropped.areaTimestamp_eq (h : s.Dropped g key s' g') :
    s'.areaTimestamp = s.areaTimestamp := by
  cases h with
  | absent _ => rfl
  | removed _ h => exact h.areaTimestamp_eq

/-- No item has the key. -/
theorem Dropped.keyOf_ne (h : s.Dropped g key s' g') (hs : s.Settled g) (hy : g'.InUse y) :
    s'.keyOf y ≠ key := by
  unfold keyOf
  rw [MdbItem.key_congr (h.body_eq hy)]
  exact ((h.inUse hs).mp hy).2

end Store

end Mdb
