-- SUMMARY: What a store holds under each key, and what the calls do to it.
import NetworkEtc.Mdb.StoreRun

/-!
# Contents

Seen from outside, a store has at most one item under each key. A change takes an item
away, or puts one under its key and takes another away at most.
-/

namespace Mdb

open Library

namespace Store

/-- The item under the key, up to its links. -/
def entry (s : Store) (key : List UInt8) : Option MdbItem :=
  (s.find key).join.map fun a => (s.mem.item a).body

variable {s s' : Store} {g g' : Ledger} {i : Nat} {x y : ItemId} {it it' : MdbItem}
  {k : List UInt8} {key value : DataEntry}

section

variable {time crrntTime : UInt32} {versionCare : Bool}

theorem isItemExpired_iff : s.isItemExpired it time = true ↔
    (it.exptime ≠ 0 ∧ it.exptime < time) ∨ it.updateTime < s.areaTimestamp it.area := by
  simp [isItemExpired]

@[simp] theorem isItemExpired_body : s.isItemExpired it.body time = s.isItemExpired it time := rfl

theorem isItemExpired_congr (h : it'.body = it.body) :
    s.isItemExpired it' time = s.isItemExpired it time :=
  (congrArg (fun it => s.isItemExpired it time) h :)

theorem refuses_congr (h : it'.body = it.body) :
    Refuses key value versionCare crrntTime s it' ↔ Refuses key value versionCare crrntTime s it :=
  iff_of_eq (congrArg (Refuses key value versionCare crrntTime s) h :)

end

namespace Settled

theorem keyOf_ne_nil (h : s.Settled g) (hx : g.InUse x) : s.keyOf x ≠ [] := by
  apply ne_nil_of_two_le
  rw [keyOf, (h.whole x hx).length_key]
  exact (h.whole x hx).two_le

theorem entry_self (h : s.Settled g) (hx : g.InUse x) :
    s.entry (s.keyOf x) = some (s.mem.item x.addr).body := by
  unfold entry
  rcases h.toKept.find (h.keyOf_ne_nil hx) with ⟨-, hnone⟩ | ⟨y, hy, hkey, hfind⟩
  · exact absurd rfl (hnone x hx)
  · obtain rfl := h.keys y x hy hx hkey
    rw [hfind]
    rfl

theorem entry_of (h : s.Settled g) (hx : g.InUse x) (hkey : s.keyOf x = k) :
    s.entry k = some (s.mem.item x.addr).body := hkey ▸ h.entry_self hx

theorem entry_none (h : s.Settled g) (hk : k ≠ []) (hnone : ∀ y, g.InUse y → s.keyOf y ≠ k) :
    s.entry k = none := by
  unfold entry
  rcases h.toKept.find hk with ⟨hfind, -⟩ | ⟨y, hy, hkey, -⟩
  · rw [hfind]
    rfl
  · exact absurd hkey (hnone y hy)

theorem entry_iff (h : s.Settled g) (hk : k ≠ []) : s.entry k = some it ↔
    ∃ x, g.InUse x ∧ s.keyOf x = k ∧ (s.mem.item x.addr).body = it := by
  constructor
  · intro hentry
    rcases Classical.em (∃ x, g.InUse x ∧ s.keyOf x = k) with ⟨x, hx, rfl⟩ | hnone
    · rw [h.entry_self hx] at hentry
      exact ⟨x, hx, rfl, Option.some.inj hentry⟩
    · rw [h.entry_none hk fun y hy hkey => hnone ⟨y, hy, hkey⟩] at hentry
      exact absurd hentry (by simp)
  · rintro ⟨x, hx, rfl, rfl⟩
    exact h.entry_self hx

/-- The item under a key has that key. -/
theorem key_entry (h : s.Settled g) (hk : k ≠ []) (hentry : s.entry k = some it) : it.key = k := by
  obtain ⟨x, -, rfl, rfl⟩ := (h.entry_iff hk).mp hentry
  rfl

end Settled

/-! # Changes -/

theorem Touched.entry (ht : s.Touched s' g) (h : s.Settled g) (hk : k ≠ []) :
    s'.entry k = s.entry k := by
  apply Option.ext
  intro it
  rw [ht.settled.entry_iff hk, h.entry_iff hk]
  apply exists_congr
  intro x
  have hkey : s'.keyOf x = s.keyOf x := MdbItem.key_congr (ht.body_eq x.addr)
  rw [hkey, ht.body_eq]

theorem Removed.keyOf_eq (hr : s.Removed s' g g' x) (hy : g'.InUse y) : s'.keyOf y = s.keyOf y :=
  MdbItem.key_congr (hr.body_eq y hy)

/-- The key of the item is free again. -/
theorem Removed.entry_self (hr : s.Removed s' g g' x) (h : s.Settled g) :
    s'.entry (s.keyOf x) = none := by
  apply hr.settled.entry_none (h.keyOf_ne_nil hr.inUse)
  intro y hy heq
  rw [hr.keyOf_eq hy] at heq
  obtain ⟨hy, hyx⟩ := hr.given.inUse.mp hy
  exact hyx (h.keys y x hy hr.inUse heq)

/-- Nothing else has changed. -/
theorem Removed.entry_ne (hr : s.Removed s' g g' x) (h : s.Settled g) (hk : k ≠ [])
    (hne : k ≠ s.keyOf x) : s'.entry k = s.entry k := by
  apply Option.ext
  intro it
  rw [hr.settled.entry_iff hk, h.entry_iff hk]
  apply exists_congr
  intro y
  constructor
  · rintro ⟨hy, rfl, rfl⟩
    exact ⟨(hr.given.inUse.mp hy).1, (hr.keyOf_eq hy).symm, (hr.body_eq y hy).symm⟩
  · rintro ⟨hy, rfl, rfl⟩
    have hyx : y ≠ x := by
      rintro rfl
      exact hne rfl
    have hy' := hr.given.inUse.mpr ⟨hy, hyx⟩
    exact ⟨hy', hr.keyOf_eq hy', hr.body_eq y hy'⟩

/-- Where items are lost, what is left is what was there. -/
theorem Losses.entry (hl : Losses (s, g) (s', g')) (h : s.Settled g) (hk : k ≠ []) :
    s'.entry k = s.entry k ∨ s'.entry k = none := by
  have hall : ∀ {c : Store × Ledger}, Losses (s, g) c → c.1.Settled c.2 ∧
      (c.1.entry k = s.entry k ∨ c.1.entry k = none) := by
    intro c hl
    induction hl with
    | refl => exact ⟨h, Or.inl rfl⟩
    | tail _ hloss ih =>
      obtain ⟨hs, hleft⟩ := ih
      refine ⟨hloss.settled, ?_⟩
      cases hloss with
      | touched ht => rwa [ht.entry hs hk]
      | @removed s₁ s₂ g₁ g₂ x hr =>
        rcases eq_or_ne k (s₁.keyOf x) with rfl | hne
        · exact Or.inr (hr.entry_self hs)
        · rwa [hr.entry_ne hs hk hne]
  exact (hall hl).2

theorem Dropped.entry_self (hd : s.Dropped g k s' g') (h : s.Settled g) (hk : k ≠ []) :
    s'.entry k = none :=
  (hd.settled h).entry_none hk fun _ hy => hd.keyOf_ne h hy

theorem Dropped.entry_ne {k' : List UInt8} (hd : s.Dropped g k s' g') (h : s.Settled g)
    (hk' : k' ≠ []) (hne : k' ≠ k) : s'.entry k' = s.entry k' := by
  cases hd with
  | absent _ => rfl
  | removed hkey hr =>
    rw [← hkey] at hne
    exact hr.entry_ne h hk' hne

/-- The item is found under its key. -/
theorem Put.entry_self (hp : s.Put s' g g' i x it) : s'.entry it.key = some it.body := by
  have hkey : s'.keyOf x = it.key := MdbItem.key_congr hp.item_eq
  rw [← hkey, hp.settled.entry_self hp.inUse, hp.item_eq]

theorem Put.entry_iff (hp : s.Put s' g g' i x it) (hk : k ≠ []) (hne : k ≠ it.key) :
    s'.entry k = some it' ↔
      ∃ y, g.InUse y ∧ y ≠ x ∧ s.keyOf y = k ∧ (s.mem.item y.addr).body = it' := by
  rw [hp.settled.entry_iff hk]
  apply exists_congr
  intro y
  have hkey : s'.keyOf x = it.key := MdbItem.key_congr hp.item_eq
  constructor
  · rintro ⟨hy, rfl, rfl⟩
    have hyx : y ≠ x := by
      rintro rfl
      exact hne hkey
    have hy' := (hp.inUse_iff.mp hy).resolve_left hyx
    have hbody := hp.body_eq y hy' hyx
    exact ⟨hy', hyx, (MdbItem.key_congr hbody).symm, hbody.symm⟩
  · rintro ⟨hy, hyx, rfl, rfl⟩
    have hbody := hp.body_eq y hy hyx
    exact ⟨hp.inUse_iff.mpr (Or.inr hy), MdbItem.key_congr hbody, hbody⟩

theorem PutNew.entry_ne (hp : s.PutNew s' g g' i x it) (h : s.Settled g) (hk : k ≠ [])
    (hne : k ≠ it.key) : s'.entry k = s.entry k := by
  apply Option.ext
  intro it'
  rw [hp.toPut.entry_iff hk hne, h.entry_iff hk]
  apply exists_congr
  intro y
  constructor
  · rintro ⟨hy, -, hkey, hbody⟩
    exact ⟨hy, hkey, hbody⟩
  · rintro ⟨hy, hkey, hbody⟩
    refine ⟨hy, ?_, hkey, hbody⟩
    rintro rfl
    exact hp.fresh hy

/-- Besides the item put, the one that had its place before has gone. -/
theorem PutOver.entry_ne (hp : s.PutOver s' g g' i x it) (h : s.Settled g) (hk : k ≠ [])
    (hne : k ≠ it.key) : s'.entry k = if k = s.keyOf x then none else s.entry k := by
  have hx := Ledger.inUse_of hp.lt hp.old
  apply Option.ext
  intro it'
  rw [hp.toPut.entry_iff hk hne]
  split
  · next heq =>
    constructor
    · rintro ⟨y, hy, hyx, hkey, -⟩
      exact absurd (h.keys y x hy hx (hkey.trans heq)) hyx
    · exact fun hnone => absurd hnone (by simp)
  · next hkeyx =>
    rw [h.entry_iff hk]
    apply exists_congr
    intro y
    constructor
    · rintro ⟨hy, -, hkey, hbody⟩
      exact ⟨hy, hkey, hbody⟩
    · rintro ⟨hy, hkey, hbody⟩
      refine ⟨hy, ?_, hkey, hbody⟩
      rintro rfl
      exact hkeyx hkey.symm

end Store

end Mdb
