-- SUMMARY: A get right after a put gives the value put, unless the place of the item had an expiry time.
import NetworkEtc.Mdb.Contents
import NetworkEtc.Mdb.Service

/-!
# Reading what was put

`do_put` sets `exptime` only if it is given a time to expire: else the item keeps the
expiry time of the item that had its place before. A place that was free has none.
-/

namespace Mdb

open Library

namespace Store

variable {s s' : Store} {g : Ledger} {key key' value : DataEntry} {versionCare : Bool}
  {expired : Int} {time crrntTime evictTime : UInt32}

/-- What a put that succeeds leaves: the item, written over `slot`. -/
structure Stored (s s' : Store) (key value : DataEntry) (evictTime : UInt32)
    (slot it : MdbItem) : Prop where
  settled : ∃ g, s'.Settled g
  entry_self : s'.entry key.data = some it.body
  entry_ne : ∀ k, k ≠ [] → k ≠ key.data → s'.entry k = s.entry k ∨ s'.entry k = none
  areaTimestamp_eq : s'.areaTimestamp = s.areaTimestamp
  flags_eq : slot.itemId.flags = 0
  exptime_eq : ∃ s₁, s.dropKey key.data = some s₁ ∧
    ((slot.exptime = 0 ∧ ∀ a, ¬ s₁.Takes { key with area := keyArea key.data } value evictTime a) ∨
      ∃ a, (∀ b, s₁.Takes { key with area := keyArea key.data } value evictTime b ↔ b = a) ∧
        slot.exptime = (s₁.mem.item a).exptime)

/-- The id of a place has no flags. -/
theorem Settled.flags_eq {x : ItemId} {slot : MdbItem} (h : s.Settled g) (hx : g.InUse x)
    (hid : slot.itemId = x) : slot.itemId.flags = 0 := by
  rw [hid, ← h.placed.clearFlags_eq hx]
  rfl

/-- A put is refused and changes nothing, or its item is in the store. -/
theorem Settled.put_stored {code : Int} (h : s.Settled g) (hkey : key.IsKey)
    (hvalue : value.IsValue)
    (hput : s.doPut key value versionCare expired crrntTime evictTime = some ((code, key'), s')) :
    (code ≠ TAIR_RETURN_SUCCESS ∧ s' = s ∧ ∃ it, s.entry key.data = some it ∧
        Refuses key value versionCare crrntTime s it) ∨
      (code = TAIR_RETURN_SUCCESS ∧ ∃ slot version,
        s.Stored s' key value evictTime slot (fillItem slot key value version
          (if expired < 0 then 0 else expired) crrntTime)) := by
  rcases h.doPut value versionCare expired crrntTime evictTime hkey.ne_nil with
    ⟨x, hx, hxkey, hrefuses, code', hcode, hrefused⟩ |
    ⟨version, s₁, g₁, hdrop, hdropped, -, hplace⟩
  · left
    rw [hrefused, Option.some.injEq, Prod.mk.injEq, Prod.mk.injEq] at hput
    obtain ⟨⟨rfl, -⟩, rfl⟩ := hput
    exact ⟨hcode, rfl, _, h.entry_of hx hxkey, (refuses_congr rfl).mpr hrefuses⟩
  · right
    rw [hplace] at hput
    have hs₁ := hdropped.settled h
    have hfilled : ∀ slot, (fillItem slot { key with area := keyArea key.data } value version
        (if expired < 0 then 0 else expired) crrntTime).key = key.data :=
      fun slot => key_fillItem hkey.2
    have hother : ∀ {k}, k ≠ [] → k ≠ key.data → s₁.entry k = s.entry k :=
      fun hk hne => hdropped.entry_ne h hk hne
    have hkey' : ({ key with area := keyArea key.data } : DataEntry).IsKey := hkey
    rcases hs₁.placeItem version (if expired < 0 then 0 else expired) crrntTime evictTime hkey'.1
        hkey'.2 hvalue rfl (fun y hy => hdropped.keyOf_ne h hy) with
      ⟨i, x, slot, s₂, g₂, hid, hexp, htakes, hplace', hnew⟩ |
      ⟨i, x, slot, s₂, g₂, hid, hexp, htakes, hplace', hover⟩ | ⟨hnone, -⟩
    · rw [hplace', Option.some.injEq, Prod.mk.injEq, Prod.mk.injEq] at hput
      obtain ⟨⟨rfl, -⟩, rfl⟩ := hput
      refine ⟨rfl, slot, version, ⟨g₂, hnew.settled⟩, ?_, fun k hk hne => Or.inl ?_, ?_,
        hnew.settled.flags_eq hnew.inUse hid, s₁, hdrop, Or.inl ⟨hexp, htakes⟩⟩
      · rw [← hfilled slot]
        exact hnew.entry_self
      · rw [← hfilled slot] at hne
        rw [hnew.entry_ne hs₁ hk hne]
        exact hother hk (hfilled slot ▸ hne)
      · rw [hnew.areaTimestamp_eq, hdropped.areaTimestamp_eq]
    · rw [hplace', Option.some.injEq, Prod.mk.injEq, Prod.mk.injEq] at hput
      obtain ⟨⟨rfl, -⟩, rfl⟩ := hput
      refine ⟨rfl, slot, version, ⟨g₂, hover.settled⟩, ?_, fun k hk hne => ?_, ?_,
        hover.settled.flags_eq hover.inUse hid, s₁, hdrop, Or.inr ⟨x.addr, htakes, hexp⟩⟩
      · rw [← hfilled slot]
        exact hover.entry_self
      · rw [← hfilled slot] at hne
        rw [hover.entry_ne hs₁ hk hne]
        split
        · exact Or.inr rfl
        · exact Or.inl (hother hk (hfilled slot ▸ hne))
      · rw [hover.areaTimestamp_eq, hdropped.areaTimestamp_eq]
    · rw [hnone] at hput
      exact absurd hput (by simp)

/-- A put of the key takes the place of no item that has an expiry time before `time`. -/
def PlaceLasts (s : Store) (key value : DataEntry) (evictTime time : UInt32) : Prop :=
  ∀ s₁, s.dropKey key.data = some s₁ →
    ∀ a, s₁.Takes { key with area := keyArea key.data } value evictTime a →
      (s₁.mem.item a).exptime = 0 ∨ time ≤ (s₁.mem.item a).exptime

theorem Stored.placeLasts_iff {slot it : MdbItem} (h : s.Stored s' key value evictTime slot it) :
    s.PlaceLasts key value evictTime time ↔ slot.exptime = 0 ∨ time ≤ slot.exptime := by
  obtain ⟨s₁, hdrop, ⟨hexp, htakes⟩ | ⟨a, htakes, hexp⟩⟩ := h.exptime_eq
  · constructor
    · exact fun _ => Or.inl hexp
    · intro _ s₂ hs₂ a ha
      rw [hdrop, Option.some.injEq] at hs₂
      exact absurd (hs₂ ▸ ha) (htakes a)
  · rw [hexp]
    constructor
    · exact fun hlasts => hlasts s₁ hdrop a ((htakes a).mpr rfl)
    · intro hlasts s₂ hs₂ b hb
      rw [hdrop, Option.some.injEq] at hs₂
      subst hs₂
      rw [(htakes b).mp hb]
      exact hlasts

variable (value time) in
/-- A get of a key that is in the store gives the value, unless the item has expired. -/
theorem Settled.get_iff {it : MdbItem} (h : s.Settled g) (hkey : key.data ≠ [])
    (harea : key.area = keyArea key.data) (hentry : s.entry key.data = some it.body) :
    (∃ key' value' s', s.doGet key value time = some ((TAIR_RETURN_SUCCESS, key', value'), s') ∧
      value'.data = it.value) ↔ s.isItemExpired it time = false := by
  rcases h.doGet value time hkey with ⟨-, hnone⟩ | ⟨x, hx, hxkey, hget⟩
  · rw [h.entry_none hkey hnone] at hentry
    exact absurd hentry (by simp)
  rw [← hxkey, h.entry_self hx, Option.some.injEq] at hentry
  have hvalue : (s.mem.item x.addr).value = it.value := MdbItem.value_congr hentry
  rw [isItemExpired_congr hentry] at hget
  rcases hget with ⟨hexpired, s', g', hget, -⟩ | ⟨hfresh, ⟨-, s', hget, -⟩ | ⟨hne, -⟩⟩
  · rw [hget, hexpired]
    constructor
    · rintro ⟨key', value', s'', heq, -⟩
      have hcode : TAIR_RETURN_DATA_EXPIRED = TAIR_RETURN_SUCCESS :=
        congrArg (fun r => r.1.1) (Option.some.inj heq)
      exact absurd hcode (by decide)
    · exact fun hfalse => absurd hfalse (by decide)
  · rw [hget, hfresh]
    exact iff_of_true ⟨_, _, s', rfl, hvalue⟩ rfl
  · exact absurd harea hne

theorem findIn_key {mem : Memory} {k : List UInt8} {fuel : Nat} {pos : ItemId}
    {pprev : Option Addr} {found : Addr × Option Addr}
    (h : findIn mem k fuel pos pprev = some (some found)) : (mem.item found.1).key = k := by
  induction fuel generalizing pos pprev with
  | zero => exact absurd h (by simp [findIn])
  | succ fuel ih =>
    unfold findIn at h
    split at h
    · exact absurd h (by simp)
    · simp only at h
      split at h
      · next hkey =>
        rw [Option.some.injEq, Option.some.injEq] at h
        rw [← h]
        exact hkey.2
      · exact ih h

/-- Whatever state the store is in, a key and a value that are got fit their fields. -/
theorem fits_of_doGet {key value value' : DataEntry} {code : Int}
    (hget : s.doGet key value time = some ((code, key', value'), s'))
    (hcode : code = TAIR_RETURN_SUCCESS) : key.data.length < 4096 ∧ value'.IsValue := by
  subst hcode
  unfold Store.doGet at hget
  rw [Option.bind_eq_bind, Option.bind_eq_some_iff] at hget
  obtain ⟨⟨⟨expired, item⟩, s₁⟩, hremove, hget⟩ := hget
  cases item with
  | none =>
    rw [Option.some.injEq, Prod.mk.injEq, Prod.mk.injEq] at hget
    have hcode := hget.1.1
    split at hcode
    · exact absurd hcode (by decide)
    · exact absurd hcode (by decide)
  | some a =>
    have hfind : s.find key.data = some (some a) ∧ s₁ = s := by
      unfold Store.removeIfExpired at hremove
      rw [Option.bind_eq_bind, Option.bind_eq_some_iff] at hremove
      obtain ⟨found, hfind, hremove⟩ := hremove
      cases found with
      | none => exact absurd hremove (by simp)
      | some b =>
        simp only at hremove
        split at hremove
        · rw [Option.bind_eq_bind, Option.bind_eq_some_iff] at hremove
          obtain ⟨s₂, -, heq⟩ := hremove
          exact absurd heq (by simp)
        · rw [Option.some.injEq, Prod.mk.injEq, Prod.mk.injEq, Option.some.injEq] at hremove
          obtain ⟨⟨-, rfl⟩, rfl⟩ := hremove
          exact ⟨hfind, rfl⟩
    obtain ⟨hfind, rfl⟩ := hfind
    have hkey : (s₁.mem.item a).key = key.data := by
      unfold Store.find at hfind
      split at hfind
      · exact absurd hfind (by simp)
      · simp only [Option.map_eq_some_iff] at hfind
        obtain ⟨_, hfind, found, rfl, rfl⟩ := hfind
        exact findIn_key hfind
    simp only at hget
    split at hget
    · rw [Option.bind_eq_bind, Option.bind_eq_some_iff] at hget
      obtain ⟨s₂, -, hget⟩ := hget
      rw [Option.some.injEq, Prod.mk.injEq, Prod.mk.injEq, Prod.mk.injEq] at hget
      obtain ⟨⟨-, -, rfl⟩, -⟩ := hget
      constructor
      · rw [← hkey, MdbItem.key]
        exact (List.length_take_le ..).trans_lt (s₁.mem.item a).keyLen.isLt
      · exact (List.length_take_le ..).trans_lt (s₁.mem.item a).dataLen.isLt
    · exact absurd hget (by simp)

/-- A put without a time to expire succeeds. A get of the key that comes next succeeds with
the value if and only if the lengths of the key and of the value fit their fields, and the
item has not got a place whose last item leaves it an expiry time before the get. -/
theorem read_put {param : MdbParam} {ops : List StoreOp} {s₀ : Store} {key₂ value₂ : DataEntry}
    (hinit : Store.init param = some s₀) (hops : ∀ op ∈ ops, op.Admissible)
    (hrun : s₀.run ops = some s)
    (hclock : InOrder (ops ++ [.put key value versionCare 0 crrntTime evictTime, .get key₂ value₂ time]))
    (htwo : 2 ≤ key.data.length)
    (hput : s.doPut key value versionCare 0 crrntTime evictTime =
      some ((TAIR_RETURN_SUCCESS, key'), s'))
    (hkey : key₂.data = key.data) (harea : key₂.area = keyArea key.data) :
    (∃ key'' value'' s'', s'.doGet key₂ value₂ time =
        some ((TAIR_RETURN_SUCCESS, key'', value''), s'') ∧ value''.data = value.data) ↔
      key.data.length < 4096 ∧ value.data.length < 2 ^ 20 ∧
        s.PlaceLasts key value evictTime time := by
  obtain ⟨g₀, hempty⟩ := empty_init hinit
  obtain ⟨g, hmoves⟩ := hempty.settled.run_moves hops hrun
  have hs := hmoves.settled hempty.settled
  have htimes : ∀ k, s.areaTimestamp k ≤ crrntTime := by
    intro k
    rcases hempty.settled.areaTimestamp_run hempty.areaTimestamp_eq hops hrun k with hzero | hread
    · rw [hzero]
      exact UInt32.zero_le
    · unfold InOrder at hclock
      rw [List.flatMap_append, List.pairwise_append] at hclock
      exact hclock.2.2 _ hread _ (by simp [StoreOp.readings])
  have hread : key.IsKey → value.IsValue →
      ((∃ key'' value'' s'', s'.doGet key₂ value₂ time =
        some ((TAIR_RETURN_SUCCESS, key'', value''), s'') ∧ value''.data = value.data) ↔
          s.PlaceLasts key value evictTime time) := by
    intro hkey' hvalue'
    rcases hs.put_stored hkey' hvalue' hput with ⟨hcode, -⟩ | ⟨-, slot, version, hstored⟩
    · exact absurd rfl hcode
    obtain ⟨g', hs'⟩ := hstored.settled
    have hentry := hstored.entry_self
    rw [← hkey] at hentry
    have hne : key₂.data ≠ [] := hkey ▸ hkey'.ne_nil
    have hget := hs'.get_iff value₂ time hne (harea.trans (congrArg keyArea hkey.symm)) hentry
    rw [value_fillItem hkey'.2 hvalue'] at hget
    rw [hget, hstored.placeLasts_iff, ← Bool.not_eq_true, isItemExpired_iff]
    have hexp : (fillItem slot key value version (if (0 : Int) < 0 then 0 else 0) crrntTime).exptime =
      slot.exptime := rfl
    have hfresh : ¬ (crrntTime < s'.areaTimestamp
        (fillItem slot key value version (if (0 : Int) < 0 then 0 else 0) crrntTime).area) := by
      rw [hstored.areaTimestamp_eq, UInt32.not_lt]
      exact htimes _
    have htime : (fillItem slot key value version (if (0 : Int) < 0 then 0 else 0)
      crrntTime).updateTime = crrntTime := rfl
    rw [hexp, htime, or_iff_left hfresh, not_and_or, not_not, UInt32.not_lt]
  constructor
  · rintro ⟨key'', value'', s'', hget, hvalue⟩
    obtain ⟨hkey_lt, hvalue_lt⟩ := fits_of_doGet hget rfl
    rw [hkey] at hkey_lt
    have hvalue' : value.IsValue := by
      unfold DataEntry.IsValue
      rw [← hvalue]
      exact hvalue_lt
    exact ⟨hkey_lt, hvalue', (hread ⟨htwo, hkey_lt⟩ hvalue').mp ⟨key'', value'', s'', hget, hvalue⟩⟩
  · rintro ⟨hkey_lt, hvalue_lt, hlasts⟩
    exact (hread ⟨htwo, hkey_lt⟩ hvalue_lt).mpr hlasts

/-- Two keys take their area to its quota; the first expires at 5. -/
def quotaRun : List StoreOp :=
  [.put (keyNo 1) (keyNo 10) false 5 1 1, .put (keyNo 2) (keyNo 20) false 0 1 1]

/-- A third key takes the place of the first. It is found until the time at which that expires,
and not after it. -/
theorem read_put_evicted : ∃ s key' s', smallStore.run quotaRun = some s ∧
    s.doPut (keyNo 3) (keyNo 30) false 0 2 2 = some ((TAIR_RETURN_SUCCESS, key'), s') ∧
    s.PlaceLasts (keyNo 3) (keyNo 30) 2 5 ∧ ¬ s.PlaceLasts (keyNo 3) (keyNo 30) 2 6 ∧
    (∃ key'' value'' s'', s'.doGet (keyNo 3) .init 5 =
      some ((TAIR_RETURN_SUCCESS, key'', value''), s'') ∧ value''.data = (keyNo 30).data) ∧
    ¬ ∃ key'' value'' s'', s'.doGet (keyNo 3) .init 6 =
      some ((TAIR_RETURN_SUCCESS, key'', value''), s'') ∧ value''.data = (keyNo 30).data := by
  have hcalls : (smallStore.run quotaRun).any (fun s =>
      (s.doPut (keyNo 3) (keyNo 30) false 0 2 2).any (fun r => r.1.1 = TAIR_RETURN_SUCCESS ∧
        (r.2.doGet (keyNo 3) .init 5).any (fun r' =>
          r'.1.1 = TAIR_RETURN_SUCCESS ∧ r'.1.2.2.data = (keyNo 30).data) = true ∧
        (r.2.doGet (keyNo 3) .init 6).all (fun r' => r'.1.1 ≠ TAIR_RETURN_SUCCESS) = true)) =
      true := by
    decide +kernel
  obtain ⟨s, hrun, hcalls⟩ := (Option.any_eq_true ..).mp hcalls
  obtain ⟨⟨⟨code, key'⟩, s'⟩, hput, hrest⟩ := (Option.any_eq_true ..).mp hcalls
  obtain ⟨hcode, hget, hlate⟩ := of_decide_eq_true hrest
  obtain ⟨⟨⟨code', key'', value''⟩, s''⟩, hget, hgot⟩ := (Option.any_eq_true ..).mp hget
  obtain ⟨hcode', hdata⟩ := of_decide_eq_true hgot
  change code = TAIR_RETURN_SUCCESS at hcode
  change code' = TAIR_RETURN_SUCCESS at hcode'
  subst hcode hcode'
  have hops : ∀ op ∈ quotaRun, op.Admissible := by decide +kernel
  have hclock : ∀ time, time = 5 ∨ time = 6 → InOrder (quotaRun ++
      [.put (keyNo 3) (keyNo 30) false 0 2 2, .get (keyNo 3) .init time]) := by
    rintro time (rfl | rfl)
    · decide +kernel
    · decide +kernel
  have hread := read_put init_smallParam hops hrun (hclock 5 (Or.inl rfl)) (by decide) hput rfl rfl
  have hread' := read_put init_smallParam hops hrun (hclock 6 (Or.inr rfl)) (by decide) hput rfl rfl
  have hfound := hread.mp ⟨key'', value'', s'', hget, hdata⟩
  have hnot : ¬ ∃ key'' value'' s'', s'.doGet (keyNo 3) .init 6 =
      some ((TAIR_RETURN_SUCCESS, key'', value''), s'') ∧ value''.data = (keyNo 30).data := by
    rintro ⟨key'', value'', s'', hget', -⟩
    rw [hget', Option.all_some] at hlate
    exact of_decide_eq_true hlate rfl
  refine ⟨s, key', s', hrun, hput, hfound.2.2, fun hlasts => ?_, ⟨key'', value'', s'', hget, hdata⟩,
    hnot⟩
  exact hnot (hread'.mpr ⟨hfound.1, hfound.2.1, hlasts⟩)

/-- A third key, put to stay, takes the place of the first, and its expiry time. -/
theorem read_put_overdue : Store.init smallParam = some smallStore ∧
    (∀ op ∈ quotaRun, op.Admissible) ∧
    InOrder (quotaRun ++ [.put (keyNo 3) (keyNo 30) false 0 2 2, .get (keyNo 3) .init 6]) ∧
    ((smallStore.run quotaRun).bind fun s => s.doPut (keyNo 3) (keyNo 30) false 0 2 2).any (fun r =>
      r.1.1 = TAIR_RETURN_SUCCESS ∧ (r.2.doGet (keyNo 3) .init 6).any fun r' =>
        r'.1.1 = TAIR_RETURN_DATA_EXPIRED) = true :=
  ⟨init_smallParam, by decide +kernel, by decide +kernel, by decide +kernel⟩

end Store

end Mdb
