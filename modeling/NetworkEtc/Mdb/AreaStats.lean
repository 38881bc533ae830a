-- SUMMARY: The statistics of an area are sums over its live items, so keeping a quota ends and keeps it.
import NetworkEtc.Library.Tally
import NetworkEtc.Mdb.Ownership

/-!
# Statistics and quotas

`data_size`, `space_usage` and `item_count` are kept up as items come and go. They are
unsigned and never below zero: a store cannot hold so much that a sum does not fit.
-/

namespace Mdb

open Library

/-- One of the statistics of an area: what is counted, and what an item counts for. -/
structure Statistic where
  count : AreaStat → UInt64
  weight : MdbItem → Nat
  count_congr : ∀ stat stat' : AreaStat, stat'.dataSize = stat.dataSize →
    stat'.spaceUsage = stat.spaceUsage → stat'.itemCount = stat.itemCount → count stat' = count stat
  weight_congr : ∀ it it' : MdbItem, it'.body = it.body → weight it' = weight it
  count_zero : ∀ stat : AreaStat, stat.dataSize = 0 → stat.spaceUsage = 0 → stat.itemCount = 0 →
    count stat = 0
  count_drop : ∀ stat it, count (statDrop stat it it.area) =
    count (stat it.area) - UInt64.ofNat (weight it)
  count_add : ∀ stat it, count (statAdd stat it it.area) =
    count (stat it.area) + UInt64.ofNat (weight it)

theorem statDrop_ne {stat : Nat → AreaStat} {it : MdbItem} {k : Nat} (h : k ≠ it.area) :
    statDrop stat it k = stat k := Function.update_of_ne h ..

theorem statAdd_ne {stat : Nat → AreaStat} {it : MdbItem} {k : Nat} (h : k ≠ it.area) :
    statAdd stat it k = stat k := Function.update_of_ne h ..

namespace Statistic

/-- `data_size` -/
def dataSize : Statistic where
  count := AreaStat.dataSize
  weight := Store.itemSize
  count_congr := fun _ _ h _ _ => h
  weight_congr := fun _ _ h => Store.itemSize_congr h
  count_zero := fun _ h _ _ => h
  count_drop := fun stat it => by simp [statDrop]
  count_add := fun stat it => by simp [statAdd]

/-- `space_usage` -/
def spaceUsage : Statistic where
  count := AreaStat.spaceUsage
  weight := fun it => it.itemId.slabSize.toNat
  count_congr := fun _ _ _ h _ => h
  weight_congr := fun _ _ h => by rw [MdbItem.itemId_congr h]
  count_zero := fun _ _ h _ => h
  count_drop := fun stat it => by simp [statDrop]
  count_add := fun stat it => by simp [statAdd]

/-- `item_count` -/
def itemCount : Statistic where
  count := AreaStat.itemCount
  weight := fun _ => 1
  count_congr := fun _ _ _ _ h => h
  weight_congr := fun _ _ _ => rfl
  count_zero := fun _ _ _ h => h
  count_drop := fun stat it => by simp [statDrop]
  count_add := fun stat it => by simp [statAdd]

variable {m : Statistic} {stat : Nat → AreaStat} {it : MdbItem} {k n : Nat}

/-- An item goes off what it was part of. -/
theorem drop_eq (h : m.count (stat k) =
      UInt64.ofNat (n + if it.area = k then m.weight it else 0)) :
    m.count (statDrop stat it k) = UInt64.ofNat n := by
  rcases eq_or_ne k it.area with rfl | hk
  · rw [if_pos rfl, UInt64.ofNat_add] at h
    rw [m.count_drop, h, UInt64.add_sub_cancel]
  · rw [if_neg hk.symm, Nat.add_zero] at h
    rw [statDrop_ne hk, h]

theorem add_eq (h : m.count (stat k) = UInt64.ofNat n) :
    m.count (statAdd stat it k) =
      UInt64.ofNat (n + if it.area = k then m.weight it else 0) := by
  rcases eq_or_ne k it.area with rfl | hk
  · rw [if_pos rfl, UInt64.ofNat_add, m.count_add, h]
  · rw [if_neg hk.symm, Nat.add_zero, statAdd_ne hk, h]

end Statistic

namespace Store

/-- What the items `live` of area `k` count for. -/
def total (s : Store) (live : Finset ItemId) (m : Statistic) (k : Nat) : Nat :=
  tally live (fun x => (s.mem.item x.addr).area) (fun x => m.weight (s.mem.item x.addr)) k

/-- The statistics are the sums over the items in use, `live`. -/
structure Audited (s : Store) (g : Ledger) (live : Finset ItemId) : Prop where
  mem_iff : ∀ x, x ∈ live ↔ g.InUse x
  counts : ∀ (m : Statistic) (k : Nat), m.count (s.areaStat k) = UInt64.ofNat (s.total live m k)

variable {s s' : Store} {g g' : Ledger} {live : Finset ItemId} {x : ItemId} {m : Statistic}
  {i k : Nat} {it : MdbItem} {c c' : Store × Ledger}

theorem total_congr (h : ∀ x ∈ live, (s'.mem.item x.addr).body = (s.mem.item x.addr).body) :
    s'.total live m k = s.total live m k := by
  apply tally_congr
  · exact fun x hx => MdbItem.area_congr (h x hx)
  · exact fun x hx => m.weight_congr _ _ (h x hx)

theorem total_erase (hx : x ∈ live) : s.total (live.erase x) m k +
    (if (s.mem.item x.addr).area = k then m.weight (s.mem.item x.addr) else 0) =
      s.total live m k :=
  tally_erase hx

theorem total_insert (hx : x ∉ live) (hit : (s.mem.item x.addr).body = it.body) :
    s.total (Insert.insert x live) m k =
      s.total live m k + if it.area = k then m.weight it else 0 := by
  unfold total
  rw [tally_insert hx, MdbItem.area_congr hit, m.weight_congr _ _ hit]

namespace Audited

theorem removed (h : s.Audited g live) (hr : s.Removed s' g g' x) :
    s'.Audited g' (live.erase x) := by
  have hx : x ∈ live := (h.mem_iff x).mpr hr.inUse
  have hmem : ∀ y, y ∈ live.erase x ↔ g'.InUse y := by
    intro y
    rw [Finset.mem_erase, hr.given.inUse, h.mem_iff, and_comm]
  refine ⟨hmem, fun m k => ?_⟩
  rw [total_congr fun y hy => hr.body_eq y ((hmem y).mp hy), hr.areaStat_eq]
  apply Statistic.drop_eq
  rw [total_erase hx]
  exact h.counts m k

theorem putNew (h : s.Audited g live) (hp : s.PutNew s' g g' i x it) :
    s'.Audited g' (Insert.insert x live) := by
  have hx : x ∉ live := fun hx => hp.fresh ((h.mem_iff x).mp hx)
  refine ⟨fun y => ?_, fun m k => ?_⟩
  · rw [Finset.mem_insert, hp.inUse_iff, h.mem_iff]
  · have hbody : ∀ y ∈ live, (s'.mem.item y.addr).body = (s.mem.item y.addr).body := by
      intro y hy
      apply hp.body_eq y ((h.mem_iff y).mp hy)
      rintro rfl
      exact hx hy
    rw [total_insert hx hp.item_eq, total_congr hbody, hp.areaStat_eq]
    exact Statistic.add_eq (h.counts m k)

theorem putOver (h : s.Audited g live) (hp : s.PutOver s' g g' i x it) : s'.Audited g' live := by
  have hx : x ∈ live := (h.mem_iff x).mpr (Ledger.inUse_of hp.lt hp.old)
  refine ⟨fun y => ?_, fun m k => ?_⟩
  · rw [hp.inUse_iff, h.mem_iff]
    constructor
    · exact Or.inr
    · rintro (rfl | hy)
      · exact Ledger.inUse_of hp.lt hp.old
      · exact hy
  · have hbody : ∀ y ∈ live.erase x, (s'.mem.item y.addr).body = (s.mem.item y.addr).body := by
      intro y hy
      obtain ⟨hyx, hy⟩ := Finset.mem_erase.mp hy
      exact hp.body_eq y ((h.mem_iff y).mp hy) hyx
    have hdrop : m.count (statDrop s.areaStat (s.mem.item x.addr) k) =
        UInt64.ofNat (s.total (live.erase x) m k) := by
      apply Statistic.drop_eq
      rw [total_erase hx]
      exact h.counts m k
    rw [← Finset.insert_erase hx, total_insert (Finset.notMem_erase x live) hp.item_eq,
      total_congr hbody, hp.areaStat_eq]
    exact Statistic.add_eq hdrop

theorem touched (h : s.Audited g live) (ht : s.Touched s' g) : s'.Audited g live := by
  refine ⟨h.mem_iff, fun m k => ?_⟩
  rw [total_congr fun y _ => ht.body_eq y.addr, ht.areaStat_eq]
  exact h.counts m k

theorem change (h : c.1.Audited c.2 live) (hc : Change c c') :
    ∃ live', c'.1.Audited c'.2 live' := by
  cases hc with
  | loss hl =>
    cases hl with
    | touched ht => exact ⟨_, h.touched ht⟩
    | removed hr => exact ⟨_, h.removed hr⟩
  | putNew hp => exact ⟨_, h.putNew hp⟩
  | putOver hp => exact ⟨_, h.putOver hp⟩

theorem move (h : c.1.Audited c.2 live) (hc : Move c c') : ∃ live', c'.1.Audited c'.2 live' := by
  cases hc with
  | change hc => exact h.change hc
  | marked areaTimestamp hstat =>
    refine ⟨live, h.mem_iff, fun m k => ?_⟩
    obtain ⟨hdata, hspace, hitems⟩ := hstat k
    exact (m.count_congr _ _ hdata hspace hitems).trans (h.counts m k)

end Audited

/-- Nothing is in an empty store. -/
theorem Empty.audited (h : s.Empty g) : s.Audited g ∅ := by
  refine ⟨fun x => by simp [h.none_inUse x], fun m k => ?_⟩
  obtain ⟨hdata, hspace, hitems⟩ := h.areaStat_eq k
  rw [m.count_zero _ hdata hspace hitems, total, tally_empty]
  rfl

/-- The sums fit their counters. -/
theorem Settled.total_lt (h : s.Settled g) (hlive : s.Audited g live)
    (hm : ∀ x, g.InUse x → m.weight (s.mem.item x.addr) ≤ 2 ^ 21) : s.total live m k < 2 ^ 64 := by
  have hcard : live.card ≤ maxItems := by
    rw [← Finset.length_toList]
    apply h.length_le live.nodup_toList
    intro x hx
    exact (hlive.mem_iff x).mp (Finset.mem_toList.mp hx)
  have hle : s.total live m k ≤ live.card * 2 ^ 21 :=
    tally_le fun x hx => hm x ((hlive.mem_iff x).mp hx)
  have hmax : live.card * 2 ^ 21 ≤ maxItems * 2 ^ 21 := Nat.mul_le_mul_right _ hcard
  exact (hle.trans hmax).trans_lt (by decide)

theorem itemSize_le (it : MdbItem) : itemSize it ≤ 2 ^ 21 := by
  have hkey := it.keyLen.isLt
  have hlen := it.dataLen.isLt
  unfold itemSize
  omega

/-- `data_size` as a number. -/
theorem Settled.toNat_dataSize (h : s.Settled g) (hlive : s.Audited g live) (k : Nat) :
    (s.areaStat k).dataSize.toNat = s.total live .dataSize k := by
  have hcount : (s.areaStat k).dataSize = UInt64.ofNat (s.total live .dataSize k) :=
    hlive.counts .dataSize k
  rw [hcount, UInt64.toNat_ofNat_of_lt']
  exact h.total_lt hlive fun x _ => itemSize_le _

/-! # Keeping a quota -/

/-- Items of area `k` have been removed from `s`, and `exceed'` bytes of `exceed` are left
to go. -/
structure Trimmed (k : Nat) (s : Store) (g : Ledger) (exceed : UInt64) (s' : Store) (g' : Ledger)
    (exceed' : UInt64) : Prop where
  settled : s'.Settled g'
  audited : ∃ live, s'.Audited g' live
  count_eq : g'.count = g.count
  quota_eq : ∀ j, (s'.areaStat j).quota = (s.areaStat j).quota
  others : ∀ j, j ≠ k → s'.areaStat j = s.areaStat j
  le : exceed'.toNat ≤ exceed.toNat
  bounded : exceed.toNat ≤ (s.areaStat k).dataSize.toNat →
    exceed'.toNat ≤ (s'.areaStat k).dataSize.toNat
  within : ∀ q, (s.areaStat k).dataSize.toNat ≤ q + exceed.toNat →
    (s'.areaStat k).dataSize.toNat ≤ q + exceed'.toNat

variable {exceed exceed' exceed'' : UInt64} {s'' : Store} {g'' : Ledger}

theorem Trimmed.refl (h : s.Settled g) (hlive : s.Audited g live) :
    Trimmed k s g exceed s g exceed :=
  ⟨h, ⟨live, hlive⟩, rfl, fun _ => rfl, fun _ _ => rfl, le_rfl, id, fun _ hq => hq⟩

theorem Trimmed.trans (h : Trimmed k s g exceed s' g' exceed')
    (h' : Trimmed k s' g' exceed' s'' g'' exceed'') : Trimmed k s g exceed s'' g'' exceed'' :=
  ⟨h'.settled, h'.audited, h'.count_eq.trans h.count_eq,
    fun j => (h'.quota_eq j).trans (h.quota_eq j),
    fun j hj => (h'.others j hj).trans (h.others j hj), h'.le.trans h.le,
    fun hle => h'.bounded (h.bounded hle), fun q hq => h'.within q (h.within q hq)⟩

theorem quota_statDrop {stat : Nat → AreaStat} (j : Nat) :
    (statDrop stat it j).quota = (stat j).quota := by
  unfold statDrop
  rw [Function.update_apply]
  split
  · next heq => rw [heq]
  · rfl

/-- What is left to go once an item of `size` bytes is gone. -/
def restAfter (exceed size : UInt64) : UInt64 := if size ≤ exceed then exceed - size else 0

theorem toNat_restAfter (exceed : UInt64) {n : Nat} (hn : n < 2 ^ 64) :
    (restAfter exceed (UInt64.ofNat n)).toNat = exceed.toNat - n := by
  have hsize : (UInt64.ofNat n).toNat = n := UInt64.toNat_ofNat_of_lt' hn
  unfold restAfter
  split
  · next hle =>
    rw [UInt64.toNat_sub_of_le _ _ hle, hsize]
  · next hgt =>
    rw [UInt64.le_iff_toNat_le, hsize, not_le] at hgt
    rw [Nat.sub_eq_zero_of_le hgt.le]
    rfl

variable (exceed) in
/-- One item of the area is removed. -/
theorem Settled.trim (h : s.Settled g) (hlive : s.Audited g live) (hx : g.InUse x)
    (hk : g.area x = k) :
    ∃ s' g', s.removeItem x.addr = some s' ∧
      Trimmed k s g exceed s' g' (restAfter exceed (UInt64.ofNat (itemSize (s.mem.item x.addr)))) ∧
      (0 < exceed.toNat →
        (restAfter exceed (UInt64.ofNat (itemSize (s.mem.item x.addr)))).toNat < exceed.toNat) := by
  obtain ⟨s', g', hremove, hr⟩ := h.removeItem hx
  have harea : (s.mem.item x.addr).area = k := (h.area_eq x hx).trans hk
  have hpos : 0 < itemSize (s.mem.item x.addr) :=
    Nat.lt_of_lt_of_le (Nat.lt_of_lt_of_le Nat.two_pos (h.whole x hx).two_le) (Nat.le_add_right _ _)
  have hrest := toNat_restAfter exceed
    ((itemSize_le (s.mem.item x.addr)).trans_lt (by decide : 2 ^ 21 < 2 ^ 64))
  have hlive' := hlive.removed hr
  have hdata : (s'.areaStat k).dataSize.toNat + itemSize (s.mem.item x.addr) =
      (s.areaStat k).dataSize.toNat := by
    rw [hr.settled.toNat_dataSize hlive', h.toNat_dataSize hlive,
      ← total_erase ((hlive.mem_iff x).mpr hx), if_pos harea]
    rw [total_congr fun y hy => hr.body_eq y ((hlive'.mem_iff y).mp hy)]
    rfl
  refine ⟨s', g', hremove, ⟨hr.settled, ⟨_, hlive'⟩, hr.given.count_eq, fun j => ?_, fun j hj => ?_,
    ?_, fun hle => ?_, fun q hq => ?_⟩, fun hpos' => ?_⟩
  · rw [hr.areaStat_eq, quota_statDrop]
  · rw [hr.areaStat_eq]
    exact statDrop_ne (harea ▸ hj)
  · rw [hrest]
    exact Nat.sub_le ..
  · rw [hrest]
    omega
  · rw [hrest]
    omega
  · rw [hrest]
    omega

variable (k exceed) in
/-- A round of `keep_area_quota`. The first may do nothing; any other removes an item if
the area has one. -/
theorem Settled.keepRound {n : Nat} (first : Bool) (h : s.Settled g) (hlive : s.Audited g live)
    (hn : i + n ≤ g.count) :
    ∃ exceed' s' g', keepRound k first n i s exceed = some (exceed', s') ∧
      Trimmed k s g exceed s' g' exceed' ∧
      (first = false → 0 < exceed.toNat →
        (∃ j x, i ≤ j ∧ j < i + n ∧ g.InSlab j x ∧ g.area x = k) →
          exceed'.toNat < exceed.toNat) := by
  induction n generalizing i s g exceed live with
  | zero =>
    refine ⟨exceed, s, g, rfl, .refl h hlive, ?_⟩
    rintro - - ⟨j, x, hle, hlt, -⟩
    exact absurd hlt (not_lt.mpr hle)
  | succ n ih =>
    have hi : i < g.count := by omega
    have hnext : i + 1 + n ≤ g.count := by omega
    unfold Store.keepRound
    simp only
    split
    · next hempty =>
      obtain ⟨exceed', s', g', hround, htrim, hprogress⟩ := ih exceed h hlive hnext
      refine ⟨exceed', s', g', hround, htrim, fun hfirst hpos => ?_⟩
      rintro ⟨j, x, hle, hlt, hx, hxk⟩
      apply hprogress hfirst hpos
      have hne : j ≠ i := fun hji => (h.listed i hi).ends_eq_zero hempty x (hji ▸ hx) hxk
      exact ⟨j, x, by omega, by omega, hx, hxk⟩
    · next hlist =>
      split
      · next hfew =>
        obtain ⟨exceed', s', g', hround, htrim, -⟩ := ih exceed h hlive hnext
        refine ⟨exceed', s', g', hround, htrim, ?_⟩
        rintro rfl
        exact absurd hfew.2 (by decide)
      · obtain ⟨x, hx, hxk, haddr⟩ := h.tail_item hi (not_or.mp hlist).2
        obtain ⟨s₁, g₁, hremove, htrim, hless⟩ := h.trim exceed hlive (Ledger.inUse_of hi hx) hxk
        rw [haddr, hremove]
        simp only [Option.bind_eq_bind, Option.bind_some]
        change ∃ _ _ _, (if restAfter exceed _ = 0 then _ else _) = _ ∧ _
        split
        · exact ⟨_, s₁, g₁, rfl, htrim, fun _ hpos _ => hless hpos⟩
        · obtain ⟨live₁, hlive₁⟩ := htrim.audited
          obtain ⟨exceed', s', g', hround, htrim', -⟩ :=
            ih _ htrim.settled hlive₁ (htrim.count_eq ▸ hnext)
          refine ⟨exceed', s', g', hround, htrim.trans htrim', fun _ hpos _ => ?_⟩
          exact htrim'.le.trans_lt (hless hpos)

/-- An area that has data has an item. -/
theorem Settled.exists_item (h : s.Settled g) (hlive : s.Audited g live)
    (hk : 0 < (s.areaStat k).dataSize.toNat) : ∃ j x, j < g.count ∧ g.InSlab j x ∧ g.area x = k := by
  rw [h.toNat_dataSize hlive] at hk
  obtain ⟨x, hx, hxk⟩ := exists_of_tally_pos hk
  have hx := (hlive.mem_iff x).mp hx
  have harea := h.area_eq x hx
  obtain ⟨j, hj, hxj⟩ := hx
  exact ⟨j, x, hj, hxj, harea.symm.trans hxk⟩

variable (exceed) in
/-- The loop of `keep_area_quota` ends: every round but the first lets `exceed` sink. -/
theorem Settled.keepLoop {fuel : Nat} (first : Bool) (h : s.Settled g) (hlive : s.Audited g live)
    (hfuel : exceed.toNat + first.toNat < fuel)
    (hle : exceed.toNat ≤ (s.areaStat k).dataSize.toNat) :
    ∃ s' g', keepLoop k fuel first s exceed = some s' ∧ Trimmed k s g exceed s' g' 0 := by
  induction fuel generalizing s g exceed first live with
  | zero => exact absurd hfuel (Nat.not_lt_zero _)
  | succ fuel ih =>
    unfold Store.keepLoop
    split
    · next hzero => exact ⟨s, g, rfl, hzero ▸ .refl h hlive⟩
    · next hne =>
      have hpos : 0 < exceed.toNat := by
        apply Nat.pos_of_ne_zero
        exact fun hzero => hne (UInt64.toNat_inj.mp hzero)
      have hcount : 0 + s.slabsCount ≤ g.count := by rw [Nat.zero_add, h.count_eq]
      obtain ⟨exceed₁, s₁, g₁, hround, htrim, hprogress⟩ :=
        h.keepRound k exceed first hlive hcount
      have hless : exceed₁.toNat + false.toNat < fuel := by
        have hexceed := htrim.le
        cases first with
        | true =>
          change exceed.toNat + 1 < fuel + 1 at hfuel
          change exceed₁.toNat + 0 < fuel
          omega
        | false =>
          obtain ⟨j, x, hj, hx, hxk⟩ := h.exists_item hlive (hpos.trans_le hle)
          have hsink := hprogress rfl hpos
            ⟨j, x, Nat.zero_le j, by rwa [Nat.zero_add, h.count_eq], hx, hxk⟩
          change exceed.toNat + 0 < fuel + 1 at hfuel
          change exceed₁.toNat + 0 < fuel
          omega
      obtain ⟨live₁, hlive₁⟩ := htrim.audited
      obtain ⟨s', g', hloop, htrim'⟩ := ih exceed₁ false htrim.settled hlive₁ hless (htrim.bounded hle)
      rw [hround]
      exact ⟨s', g', hloop, htrim.trans htrim'⟩

/-- `s'` is `s` with the areas `A` within their quotas. -/
structure QuotaKept (A : Nat → Prop) (s s' : Store) (g' : Ledger) : Prop where
  settled : s'.Settled g'
  audited : ∃ live, s'.Audited g' live
  quota_eq : ∀ j, (s'.areaStat j).quota = (s.areaStat j).quota
  others : ∀ j, ¬ A j → s'.areaStat j = s.areaStat j
  within : ∀ j, A j → (s'.areaStat j).dataSize ≤ (s'.areaStat j).quota

/-- `check_quota` of one area. -/
theorem Settled.checkArea (h : s.Settled g) (hlive : s.Audited g live)
    (hk : k < TAIR_MAX_AREA_COUNT) :
    ∃ s' g', s.checkArea k = some s' ∧ QuotaKept (· = k) s s' g' := by
  have hstay : (s.areaStat k).dataSize ≤ (s.areaStat k).quota → QuotaKept (· = k) s s g :=
    fun hle => ⟨h, ⟨live, hlive⟩, fun _ => rfl, fun _ _ => rfl, fun _ hj => hj ▸ hle⟩
  unfold Store.checkArea
  simp only
  split
  · next hzero =>
    refine ⟨s, g, rfl, hstay ?_⟩
    rw [hzero]
    exact UInt64.zero_le
  · split
    · next hexceed =>
      have hsub := UInt64.toNat_sub_of_le _ _ (UInt64.le_of_lt hexceed)
      rw [UInt64.lt_iff_toNat_lt] at hexceed
      unfold Store.keepAreaQuota
      rw [if_pos hk]
      obtain ⟨s', g', hloop, htrim⟩ := h.keepLoop (k := k)
        ((s.areaStat k).dataSize - (s.areaStat k).quota) true hlive (Nat.lt_succ_self _)
        (hsub ▸ Nat.sub_le ..)
      refine ⟨s', g', hloop, htrim.settled, htrim.audited, htrim.quota_eq, htrim.others, ?_⟩
      rintro j rfl
      have hwithin := htrim.within (s.areaStat j).quota.toNat (by omega)
      rw [UInt64.le_iff_toNat_le, htrim.quota_eq]
      exact hwithin
    · next hle => exact ⟨s, g, rfl, hstay (UInt64.not_lt.mp hle)⟩

theorem Settled.checkFrom {n : Nat} (h : s.Settled g) (hlive : s.Audited g live)
    (hn : i + n ≤ TAIR_MAX_AREA_COUNT) :
    ∃ s' g', checkFrom n i s = some s' ∧ QuotaKept (fun j => i ≤ j ∧ j < i + n) s s' g' := by
  induction n generalizing i s g live with
  | zero =>
    refine ⟨s, g, rfl, h, ⟨live, hlive⟩, fun _ => rfl, fun _ _ => rfl, ?_⟩
    rintro j ⟨hle, hlt⟩
    exact absurd hlt (not_lt.mpr hle)
  | succ n ih =>
    obtain ⟨s₁, g₁, hfirst, hkept₁⟩ := h.checkArea (k := i) hlive (by omega)
    obtain ⟨live₁, hlive₁⟩ := hkept₁.audited
    obtain ⟨s', g', hrest, hkept⟩ := ih (i := i + 1) hkept₁.settled hlive₁ (by omega)
    refine ⟨s', g', ?_, hkept.settled, hkept.audited, fun j => ?_, fun j hj => ?_, ?_⟩
    · simp only [Store.checkFrom, hfirst, Option.bind_some, hrest]
    · rw [hkept.quota_eq, hkept₁.quota_eq]
    · rw [hkept.others j (by omega), hkept₁.others j (by omega)]
    · rintro j ⟨hle, hlt⟩
      rcases hle.eq_or_lt with rfl | hlt'
      · rw [hkept.others i (by omega)]
        exact hkept₁.within i rfl
      · exact hkept.within j ⟨hlt', by omega⟩

/-- `check_quota` ends with every area within its quota. -/
theorem Settled.checkQuota (h : s.Settled g) (hlive : s.Audited g live) :
    ∃ s' g', s.checkQuota = some s' ∧ QuotaKept (· < TAIR_MAX_AREA_COUNT) s s' g' := by
  obtain ⟨s', g', hcheck, hkept⟩ := h.checkFrom (i := 0) (n := TAIR_MAX_AREA_COUNT) hlive le_rfl
  refine ⟨s', g', hcheck, hkept.settled, hkept.audited, hkept.quota_eq, fun j hj => ?_, fun j hj => ?_⟩
  · exact hkept.others j fun hin => hj (Nat.zero_add TAIR_MAX_AREA_COUNT ▸ hin.2)
  · exact hkept.within j ⟨Nat.zero_le j, (Nat.zero_add TAIR_MAX_AREA_COUNT).symm ▸ hj⟩

end Store

end Mdb
