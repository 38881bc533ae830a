-- SUMMARY: The store in service: no call fails, and what every run of calls keeps.
import NetworkEtc.Mdb.AreaStats

/-!
# The store in service

A store whose slabs have a page each serves every call whose area exists and whose item
fits in a slab: no assertion fails and every loop ends. So what is shown of the states
that runs reach is shown of all runs.
-/

namespace Mdb

open Library

namespace Store

/-- A slab has items large enough for a key and a value of `n` bytes. -/
def Fits (s : Store) (n : Nat) : Prop :=
  ∃ i < s.slabsCount, itemHeaderSize + n ≤ (s.slabs i).slabSize

/-- What the callers of `mdb_manager` see to, besides the lengths. -/
def Serves (s : Store) : StoreOp → Prop
  | .put key value _ _ _ _ =>
    keyArea key.data < TAIR_MAX_AREA_COUNT ∧ s.Fits (key.data.length + value.data.length)
  | .get key _ _ => key.area = keyArea key.data
  | .remove _ => True
  | .addCount key _ _ _ _ _ _ _ _ =>
    key.area = keyArea key.data ∧ key.area < TAIR_MAX_AREA_COUNT ∧
      s.Fits (key.data.length + (counterBytes 0).length)
  | .lookup _ _ => True
  | .clear area _ => area < TAIR_MAX_AREA_COUNT
  | .setAreaQuota area _ => area < TAIR_MAX_AREA_COUNT
  | .checkQuota => True

instance (s : Store) (n : Nat) : Decidable (s.Fits n) :=
  inferInstanceAs (Decidable (∃ i < s.slabsCount, itemHeaderSize + n ≤ (s.slabs i).slabSize))

instance (s : Store) (op : StoreOp) : Decidable (s.Serves op) :=
  match op with
  | .put .. => inferInstanceAs (Decidable (_ ∧ _))
  | .get .. => inferInstanceAs (Decidable (_ = _))
  | .remove .. => instDecidableTrue
  | .addCount .. => inferInstanceAs (Decidable (_ ∧ _ ∧ _))
  | .lookup .. => instDecidableTrue
  | .clear .. => inferInstanceAs (Decidable (_ < _))
  | .setAreaQuota .. => inferInstanceAs (Decidable (_ < _))
  | .checkQuota => instDecidableTrue

/-- Every slab has a page. -/
def Stocked (s : Store) : Prop := ∀ i < s.slabsCount, ∃ p, s.Owns i p

/-- The slabs are what they were, and none has lost its last page. -/
structure Steady (g g' : Ledger) : Prop where
  count_eq : g'.count = g.count
  shape_eq : g'.shape = g.shape
  nonempty : ∀ i, (g.owned i).Nonempty → (g'.owned i).Nonempty

variable {s s' : Store} {g g' g'' : Ledger} {key value : DataEntry} {n : Nat}
  {c c' : Store × Ledger} {x : ItemId}

theorem Steady.refl : Steady g g := ⟨rfl, rfl, fun _ hp => hp⟩

theorem Steady.trans (h : Steady g g') (h' : Steady g' g'') : Steady g g'' :=
  ⟨h'.count_eq.trans h.count_eq, h'.shape_eq.trans h.shape_eq,
    fun i hp => h'.nonempty i (h.nonempty i hp)⟩

theorem Removed.steady (h : s.Removed s' g g' x) : Steady g g' :=
  ⟨h.given.count_eq, h.given.shape_eq, h.given.nonempty⟩

theorem Put.steady {i : Nat} {it : MdbItem} (h : s.Put s' g g' i x it) : Steady g g' :=
  ⟨h.count_eq, h.shape_eq, h.nonempty⟩

theorem Change.steady (h : Change c c') : Steady c.2 c'.2 := by
  cases h with
  | loss h =>
    cases h with
    | touched _ => exact .refl
    | removed h => exact h.steady
  | putNew h => exact h.steady
  | putOver h => exact h.steady

theorem Moves.steady (h : Moves c c') : Steady c.2 c'.2 := by
  induction h with
  | refl => exact .refl
  | tail _ hmove ih =>
    cases hmove with
    | change hchange => exact ih.trans hchange.steady
    | marked _ _ => exact ih

theorem Dropped.steady {key : List UInt8} (h : s.Dropped g key s' g') : Steady g g' :=
  h.losses.changes.moves.steady

/-- What fits fits later on. -/
theorem Steady.fits (h : Steady g g') (hs : s.Settled g) (hs' : s'.Settled g') (hn : s.Fits n) :
    s'.Fits n := by
  obtain ⟨i, hi, hle⟩ := hn
  rw [hs.count_eq] at hi
  have hi' : i < g'.count := h.count_eq ▸ hi
  refine ⟨i, hs'.count_eq ▸ hi', ?_⟩
  rw [hs'.shape_eq i hi', h.shape_eq, ← hs.shape_eq i hi]
  exact hle

theorem Steady.serves {op : StoreOp} (h : Steady g g') (hs : s.Settled g) (hs' : s'.Settled g')
    (hop : s.Serves op) : s'.Serves op := by
  cases op with
  | put key value _ _ _ _ => exact ⟨hop.1, h.fits hs hs' hop.2⟩
  | addCount key _ _ _ _ _ _ _ _ => exact ⟨hop.1, hop.2.1, h.fits hs hs' hop.2.2⟩
  | get _ _ _ => exact hop
  | remove _ => exact hop
  | lookup _ _ => exact hop
  | clear _ _ => exact hop
  | setAreaQuota _ _ => exact hop
  | checkQuota => exact hop

theorem Settled.stocked (h : s.Settled g) (hs : s.Stocked) : ∀ i < g.count, (g.owned i).Nonempty := by
  intro i hi
  obtain ⟨p, hp⟩ := hs i (h.count_eq ▸ hi)
  exact ⟨p, (h.owns_iff hi).mp hp⟩

/-! # No call fails -/

section

variable {versionCare : Bool} {expired : Int} {version : UInt16} {time crrntTime evictTime : UInt32}
  (h : s.Settled g) (hpages : ∀ i < g.count, (g.owned i).Nonempty)
include h

theorem Settled.getSlabmng (hkey : key.data.length < 4096) (hvalue : value.data.length < 2 ^ 20)
    (hfits : s.Fits (key.data.length + value.data.length)) :
    ∃ i < g.count, s.getSlabmng (totalSize key.data value.data) = some i := by
  obtain ⟨i, hi, hle⟩ := hfits
  cases hslab : s.getSlabmng (totalSize key.data value.data) with
  | some j => exact ⟨j, h.count_eq ▸ (getSlabmng_some hslab).1, rfl⟩
  | none =>
    unfold Store.getSlabmng at hslab
    have hsmall := List.find?_eq_none.mp hslab i (List.mem_range.mpr hi)
    rw [totalSize_eq hkey hvalue, decide_eq_true_eq] at hsmall
    omega

include hpages

theorem Settled.placeItem_isSome (hkey : key.IsKey) (hvalue : value.IsValue)
    (harea : key.area = keyArea key.data) (hlt : key.area < TAIR_MAX_AREA_COUNT)
    (hfits : s.Fits (key.data.length + value.data.length))
    (hnew : ∀ y, g.InUse y → s.keyOf y ≠ key.data) :
    ∃ r s', s.placeItem key value version expired crrntTime evictTime = some (r, s') := by
  rcases h.placeItem version expired crrntTime evictTime hkey.1 hkey.2 hvalue harea hnew with
    ⟨_, _, _, s', _, -, -, -, hplace, -⟩ | ⟨_, _, _, s', _, -, -, -, hplace, -⟩ | ⟨-, hempty⟩
  · exact ⟨_, s', hplace⟩
  · exact ⟨_, s', hplace⟩
  · obtain ⟨i, hi, hslab⟩ := h.getSlabmng hkey.2 hvalue hfits
    exact absurd (hempty hlt i hslab) (hpages i hi).ne_empty

variable (versionCare expired crrntTime evictTime) in
theorem Settled.doPut_isSome (hkey : key.IsKey) (hvalue : value.IsValue)
    (hlt : keyArea key.data < TAIR_MAX_AREA_COUNT)
    (hfits : s.Fits (key.data.length + value.data.length)) :
    ∃ r s', s.doPut key value versionCare expired crrntTime evictTime = some (r, s') := by
  rcases h.doPut value versionCare expired crrntTime evictTime hkey.ne_nil with
    ⟨-, -, -, -, code, -, hrefused⟩ | ⟨version, s₁, g₁, -, hdropped, -, hplace⟩
  · exact ⟨_, s, hrefused⟩
  · have hsteady := hdropped.steady
    have hs₁ := hdropped.settled h
    have hpages₁ : ∀ i < g₁.count, (g₁.owned i).Nonempty :=
      fun i hi => hsteady.nonempty i (hpages i (hsteady.count_eq ▸ hi))
    rw [hplace]
    have hkey' : ({ key with area := keyArea key.data } : DataEntry).IsKey := hkey
    exact hs₁.placeItem_isSome hpages₁ hkey' hvalue rfl hlt (hsteady.fits h hs₁ hfits)
      fun y hy => hdropped.keyOf_ne h hy

theorem Settled.doAddCount_isSome {count initValue resultValue : Int32} {notNegative : Bool}
    {getTime : UInt32} (hkey : key.IsKey) (harea : key.area = keyArea key.data)
    (hlt : key.area < TAIR_MAX_AREA_COUNT)
    (hfits : s.Fits (key.data.length + (counterBytes 0).length)) :
    ∃ r s', s.doAddCount key count initValue notNegative expired resultValue getTime crrntTime
      evictTime = some (r, s') := by
  have hgot : ∃ r s₁, s.doGet key .init getTime = some (r, s₁) := by
    rcases h.doGet .init getTime hkey.ne_nil with ⟨hnone, -⟩ |
      ⟨x, -, -, ⟨-, s₁, -, hexpired, -⟩ | ⟨-, ⟨-, s₁, hfound, -⟩ | ⟨hne, -⟩⟩⟩
    · exact ⟨_, s, hnone⟩
    · exact ⟨_, s₁, hexpired⟩
    · exact ⟨_, s₁, hfound⟩
    · exact absurd harea hne
  obtain ⟨⟨rc, key', oldValue⟩, s₁, hget⟩ := hgot
  obtain ⟨hdata, g₁, hlosses⟩ := h.doGet_losses hkey hget
  have hdata : key'.data = key.data := hdata
  have hs₁ := hlosses.settled h
  have hsteady := hlosses.changes.moves.steady
  have hpages₁ : ∀ i < g₁.count, (g₁.owned i).Nonempty :=
    fun i hi => hsteady.nonempty i (hpages i (hsteady.count_eq ▸ hi))
  unfold Store.doAddCount
  rw [hget]
  simp only [Option.bind_eq_bind, Option.bind_some]
  split
  · exact ⟨_, _, rfl⟩
  · have hkey' : key'.IsKey := by
      unfold DataEntry.IsKey
      rw [hdata]
      exact hkey
    have hlt' : keyArea key'.data < TAIR_MAX_AREA_COUNT := by
      rw [hdata, ← harea]
      exact hlt
    have hfits' : s₁.Fits (key'.data.length + (counterBytes count).length) := by
      rw [hdata]
      exact hsteady.fits h hs₁ hfits
    generalize hvalue : ({ data := _, .. } : DataEntry) = value
    have hlen : value.data.length = (counterBytes count).length := by
      rw [← hvalue]
      rfl
    have hvalue' : value.IsValue := by
      unfold DataEntry.IsValue
      rw [hlen, length_counterBytes]
      decide
    obtain ⟨r, s', hput⟩ := hs₁.doPut_isSome true expired crrntTime evictTime hpages₁ hkey' hvalue'
      hlt' (hlen ▸ hfits')
    rw [hput]
    exact ⟨_, s', rfl⟩

/-- A call that is served ends. -/
theorem Settled.step_isSome {op : StoreOp} (hlive : ∃ live, s.Audited g live)
    (hop : op.Admissible) (hserves : s.Serves op) : ∃ s', s.step op = some s' := by
  cases op with
  | put key value versionCare expired crrntTime evictTime =>
    obtain ⟨r, s', hput⟩ := h.doPut_isSome versionCare expired crrntTime evictTime hpages hop.1
      hop.2 hserves.1 hserves.2
    exact ⟨s', Option.map_eq_some_iff.mpr ⟨_, hput, rfl⟩⟩
  | get key value time =>
    rcases h.doGet value time hop.ne_nil with ⟨hnone, -⟩ |
      ⟨x, -, -, ⟨-, s₁, -, hexpired, -⟩ | ⟨-, ⟨-, s₁, hfound, -⟩ | ⟨hne, -⟩⟩⟩
    · exact ⟨s, Option.map_eq_some_iff.mpr ⟨_, hnone, rfl⟩⟩
    · exact ⟨s₁, Option.map_eq_some_iff.mpr ⟨_, hexpired, rfl⟩⟩
    · exact ⟨s₁, Option.map_eq_some_iff.mpr ⟨_, hfound, rfl⟩⟩
    · exact absurd hserves hne
  | remove key =>
    obtain ⟨code, key', s₁, -, hremove, -⟩ := h.doRemove hop.ne_nil
    exact ⟨s₁, Option.map_eq_some_iff.mpr ⟨_, hremove, rfl⟩⟩
  | addCount key count initValue notNegative expired resultValue getTime crrntTime evictTime =>
    obtain ⟨r, s', hadd⟩ := h.doAddCount_isSome hpages hop hserves.1 hserves.2.1 hserves.2.2
    exact ⟨s', Option.map_eq_some_iff.mpr ⟨_, hadd, rfl⟩⟩
  | lookup key time =>
    rcases eq_or_ne key.area (keyArea key.data) with harea | harea
    · rcases h.doLookup time hop.ne_nil harea with ⟨hnone, -⟩ |
        ⟨x, -, -, ⟨-, s₁, -, hexpired, -⟩ | ⟨-, hfound⟩⟩
      · exact ⟨s, Option.map_eq_some_iff.mpr ⟨_, hnone, rfl⟩⟩
      · exact ⟨s₁, Option.map_eq_some_iff.mpr ⟨_, hexpired, rfl⟩⟩
      · exact ⟨s, Option.map_eq_some_iff.mpr ⟨_, hfound, rfl⟩⟩
    · refine ⟨s, Option.map_eq_some_iff.mpr ⟨(false, s), ?_, rfl⟩⟩
      unfold Store.doLookup
      rw [if_neg harea]
  | clear area time => exact ⟨_, if_pos hserves⟩
  | setAreaQuota area quota => exact ⟨_, if_pos hserves⟩
  | checkQuota =>
    obtain ⟨live, hlive⟩ := hlive
    obtain ⟨s', g', hcheck, -⟩ := h.checkQuota hlive
    exact ⟨s', hcheck⟩

end

/-! # Runs -/

/-- The sums are right after every sequence of moves. -/
theorem Moves.audited (h : Moves c c') (hs : c.1.Settled c.2)
    (hlive : ∃ live, c.1.Audited c.2 live) : ∃ live, c'.1.Audited c'.2 live := by
  apply (h.invariant (P := fun s g => ∃ live, s.Audited g live) _ hs hlive).2
  rintro c₁ c₂ hmove - ⟨live, hlive⟩
  exact hlive.move hmove

/-- The state that a run reaches. -/
theorem reached {param : MdbParam} {ops : List StoreOp} {s₀ : Store}
    (hinit : Store.init param = some s₀) (hops : ∀ op ∈ ops, op.Admissible)
    (hrun : s₀.run ops = some s) : ∃ g live, s.Settled g ∧ s.Audited g live := by
  obtain ⟨g₀, hempty⟩ := empty_init hinit
  obtain ⟨g, hmoves⟩ := hempty.settled.run_moves hops hrun
  obtain ⟨live, hlive⟩ := hmoves.audited hempty.settled ⟨_, hempty.audited⟩
  exact ⟨g, live, hmoves.settled hempty.settled, hlive⟩

/-- A run of calls that are served ends. -/
theorem Settled.run_isSome {ops : List StoreOp} (h : s.Settled g)
    (hlive : ∃ live, s.Audited g live) (hpages : ∀ i < g.count, (g.owned i).Nonempty)
    (hops : ∀ op ∈ ops, op.Admissible ∧ s.Serves op) : ∃ s', s.run ops = some s' := by
  induction ops generalizing s g with
  | nil => exact ⟨s, rfl⟩
  | cons op ops ih =>
    obtain ⟨hop, hserves⟩ := hops op (List.mem_cons_self ..)
    obtain ⟨s₁, hstep⟩ := h.step_isSome hpages hlive hop hserves
    obtain ⟨-, g₁, hmoves⟩ := h.step_moves hop hstep
    have hs₁ := hmoves.settled h
    have hsteady := hmoves.steady
    obtain ⟨s', hrun⟩ := ih hs₁ (hmoves.audited h hlive)
      (fun i hi => hsteady.nonempty i (hpages i (hsteady.count_eq ▸ hi)))
      (fun op' hop' => ⟨(hops op' (List.mem_cons_of_mem _ hop')).1,
        hsteady.serves h hs₁ (hops op' (List.mem_cons_of_mem _ hop')).2⟩)
    exact ⟨s', Option.bind_eq_some_iff.mpr ⟨s₁, hstep, hrun⟩⟩

/-- No call of a run fails if every slab has got a page. -/
theorem served_run {param : MdbParam} {ops : List StoreOp} {s₀ : Store}
    (hinit : Store.init param = some s₀) (hpages : s₀.Stocked)
    (hops : ∀ op ∈ ops, op.Admissible ∧ s₀.Serves op) : ∃ s, s₀.run ops = some s := by
  obtain ⟨g₀, hempty⟩ := empty_init hinit
  exact hempty.settled.run_isSome ⟨_, hempty.audited⟩ (hempty.settled.stocked hpages) hops

/-- A slab of one item a page, and three pages for it. -/
def smallParam : MdbParam where
  totalPages := 5
  totalPages_le := by decide
  metaPages := 1
  hashShift := 0
  slabBaseSize := pageArea
  factor := ⟨fun start => start + pageSize, fun _ => Nat.le_add_right ..⟩
  defaultAreaCapacity := fun _ => 10

def smallStore : Store := (Store.init smallParam).get (by decide +kernel)

theorem init_smallParam : Store.init smallParam = some smallStore := (Option.some_get _).symm

theorem stocked_smallStore : smallStore.Stocked := by
  intro i hi
  have hcount : smallStore.slabsCount = 1 := by decide +kernel
  obtain rfl : i = 0 := by omega
  have hfirst : pagePtr (smallStore.mem.page 2).next = none := by decide +kernel
  refine ⟨2, .free, [2], ⟨?_, hfirst⟩, List.mem_singleton_self 2⟩
  decide +kernel

/-- A key of area 3. -/
def keyNo (n : UInt8) : DataEntry := { DataEntry.init with data := [3, 0, n], area := 3 }

/-- Four keys are put, so that one loses its place; a counter comes and goes. -/
def busyRun : List StoreOp :=
  [.put (keyNo 1) (keyNo 10) false 0 1 1, .put (keyNo 2) (keyNo 20) false 5 2 2,
    .put (keyNo 3) (keyNo 30) true 0 3 3, .put (keyNo 4) (keyNo 40) false 0 9 9,
    .get (keyNo 3) .init 10, .addCount (keyNo 5) 7 0 true 0 0 10 10 10, .remove (keyNo 4)]

/-- Whatever calls are made, every item slot of a slab's pages is in the free list of its
page, or it is live: then it is in the chain of its key's bucket, in the list of its slab
and its key's area, in no other, and no other item has its key. -/
theorem slotted_run {param : MdbParam} {ops : List StoreOp} {s₀ : Store}
    (hinit : Store.init param = some s₀) (hpages : s₀.Stocked)
    (hops : ∀ op ∈ ops, op.Admissible) :
    (∀ s, s₀.run ops = some s → s.Slotted) ∧
      ((∀ op ∈ ops, s₀.Serves op) → ∃ s, s₀.run ops = some s) := by
  refine ⟨fun s hrun => ?_, fun hserves => ?_⟩
  · obtain ⟨g, live, hs, -⟩ := reached hinit hops hrun
    exact hs.slotted
  · exact served_run hinit hpages fun op hop => ⟨hops op hop, hserves op hop⟩

theorem slotted_busyRun : ∃ s, smallStore.run busyRun = some s ∧ s.Slotted := by
  have hops : ∀ op ∈ busyRun, op.Admissible := by decide +kernel
  obtain ⟨hslotted, hserved⟩ := slotted_run init_smallParam stocked_smallStore hops
  obtain ⟨s, hrun⟩ := hserved (by decide +kernel)
  exact ⟨s, hrun, hslotted s hrun⟩

/-! # Accounts -/

/-- The statistics of each area are the sums over the live items with a key of the area. -/
def Counted (s : Store) : Prop :=
  ∃ live : Finset ItemId, (∀ x, x ∈ live ↔ s.Live x) ∧ ∀ k,
    (s.areaStat k).dataSize.toNat = ∑ x ∈ live with keyArea (s.keyOf x) = k,
      ((s.keyOf x).length + (s.mem.item x.addr).value.length) ∧
    (s.areaStat k).spaceUsage.toNat = ∑ x ∈ live with keyArea (s.keyOf x) = k, x.slabSize.toNat ∧
    (s.areaStat k).itemCount.toNat = (live.filter fun x => keyArea (s.keyOf x) = k).card

theorem Settled.counted {live : Finset ItemId} (h : s.Settled g) (hlive : s.Audited g live) :
    s.Counted := by
  have hmem : ∀ x ∈ live, g.InUse x := fun x => (hlive.mem_iff x).mp
  have hcount : ∀ (m : Statistic) (weight : ItemId → Nat) (k : Nat),
      (∀ x ∈ live, m.weight (s.mem.item x.addr) = weight x) →
      (∀ x, g.InUse x → m.weight (s.mem.item x.addr) ≤ 2 ^ 21) →
      (m.count (s.areaStat k)).toNat = ∑ x ∈ live with keyArea (s.keyOf x) = k, weight x := by
    intro m weight k hweight hle
    rw [hlive.counts, UInt64.toNat_ofNat_of_lt' (h.total_lt hlive hle)]
    apply tally_congr
    · intro x hx
      exact area_eq_keyArea (h.whole x (hmem x hx))
    · exact hweight
  refine ⟨live, fun x => (hlive.mem_iff x).trans h.live_iff.symm, fun k => ⟨?_, ?_, ?_⟩⟩
  · apply hcount .dataSize
    · intro x hx
      have hwhole := h.whole x (hmem x hx)
      have hvalue : (s.mem.item x.addr).value.length = (s.mem.item x.addr).dataLen.toNat := by
        unfold MdbItem.value
        rw [List.length_take, List.length_drop, hwhole.length_data]
        omega
      change _ = (s.mem.item x.addr).key.length + _
      rw [hwhole.length_key, hvalue]
      rfl
    · exact fun x _ => itemSize_le _
  · apply hcount .spaceUsage
    · intro x hx
      have hid := h.placed.item_id x (hmem x hx)
      exact congrArg (fun x => x.slabSize.toNat) hid
    · intro x _
      exact (s.mem.item x.addr).itemId.slabSize.isLt.le.trans (by decide)
  · rw [← tally_one]
    apply hcount .itemCount
    · exact fun _ _ => rfl
    · exact fun _ _ => Nat.one_le_two_pow

/-- Whatever calls are made, the statistics of every area are the sums over its live
items, and `check_quota` would end with every area within its quota. -/
theorem counted_run {param : MdbParam} {ops : List StoreOp} {s₀ : Store}
    (hinit : Store.init param = some s₀) (hpages : s₀.Stocked)
    (hops : ∀ op ∈ ops, op.Admissible) :
    (∀ s, s₀.run ops = some s → s.Counted ∧ ∃ s', s.checkQuota = some s' ∧ s'.Counted ∧
      (∀ k, (s'.areaStat k).quota = (s.areaStat k).quota) ∧
      ∀ k < TAIR_MAX_AREA_COUNT, (s'.areaStat k).dataSize ≤ (s'.areaStat k).quota) ∧
      ((∀ op ∈ ops, s₀.Serves op) → ∃ s, s₀.run ops = some s) := by
  refine ⟨fun s hrun => ?_, fun hserves => ?_⟩
  · obtain ⟨g, live, hs, hlive⟩ := reached hinit hops hrun
    obtain ⟨s', g', hcheck, hkept⟩ := hs.checkQuota hlive
    obtain ⟨live', hlive'⟩ := hkept.audited
    exact ⟨hs.counted hlive, s', hcheck, hkept.settled.counted hlive', hkept.quota_eq, hkept.within⟩
  · exact served_run hinit hpages fun op hop => ⟨hops op hop, hserves op hop⟩

theorem counted_busyRun : ∃ s, smallStore.run busyRun = some s ∧ s.Counted ∧
    ∃ s', s.checkQuota = some s' ∧ ∀ k < TAIR_MAX_AREA_COUNT,
      (s'.areaStat k).dataSize ≤ (s'.areaStat k).quota := by
  have hops : ∀ op ∈ busyRun, op.Admissible := by decide +kernel
  obtain ⟨hcounted, hserved⟩ := counted_run init_smallParam stocked_smallStore hops
  obtain ⟨s, hrun⟩ := hserved (by decide +kernel)
  obtain ⟨hs, s', hcheck, -, -, hwithin⟩ := hcounted s hrun
  exact ⟨s, hrun, hs, s', hcheck, hwithin⟩

end Store

end Mdb
