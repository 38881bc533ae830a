-- SUMMARY: The store in use by all its callers: scans, closed buckets and flags after any calls.
import NetworkEtc.Mdb.FreePage
import NetworkEtc.Mdb.Sweep

/-!
# All the calls

The calls of the server, the raw ones, those of a migration and of the threads that clean up, in
any order. What is shown of a scan, of closing buckets and of a raw put holds in every state that
they reach.
-/

namespace Mdb

open Library

namespace Store

/-- The calls of `mdb_manager`. A sweep of the table holds the lock for one chain at a time, so
each chain is a call of its own. -/
inductive UseOp where
  | call (op : PageOp)
  | rawPut (key value : List UInt8) (flag : BitVec 32) (expired crrntTime evictTime : UInt32)
  | rawGet (key value : List UInt8) (time : UInt32)
  | rawRemove (key : List UInt8)
  | getMeta (key : DataEntry) (info : ItemMeta) (time : UInt32)
  | getNextItems (bucketCount : UInt32) (info : MdInfo) (list : List ItemDataInfo)
      (crrntTime : UInt32)
  | closeChain (bucketCount : UInt32) (buckets : List Int32) (crrntTime : UInt32)
      (hashIndex : Nat)
  | exprdChain (crrntTime : UInt32) (hashIndex : Nat)
  | deletedChain (hashIndex : Nat)

/-- The lengths of the key and of the value fit their fields, and the buckets are counted. -/
def UseOp.Admissible : UseOp → Prop
  | .call op => op.Admissible
  | .rawPut key value _ _ _ _ => (2 ≤ key.length ∧ key.length < 4096) ∧ value.length < 2 ^ 20
  | .rawGet key _ _ => 2 ≤ key.length
  | .rawRemove key => 2 ≤ key.length
  | .getMeta key _ _ => key.IsKey
  | .getNextItems bucketCount _ _ _ => bucketCount ≠ 0
  | .closeChain bucketCount _ _ _ => bucketCount ≠ 0
  | .exprdChain _ _ => True
  | .deletedChain _ => True

instance (op : UseOp) : Decidable op.Admissible :=
  match op with
  | .call op => inferInstanceAs (Decidable op.Admissible)
  | .rawPut .. => inferInstanceAs (Decidable (_ ∧ _))
  | .rawGet .. => inferInstanceAs (Decidable (_ ≤ _))
  | .rawRemove .. => inferInstanceAs (Decidable (_ ≤ _))
  | .getMeta key _ _ => inferInstanceAs (Decidable key.IsKey)
  | .getNextItems .. => inferInstanceAs (Decidable (_ ≠ _))
  | .closeChain .. => inferInstanceAs (Decidable (_ ≠ _))
  | .exprdChain .. => instDecidableTrue
  | .deletedChain .. => instDecidableTrue

/-- The store after a call. -/
def useStep (s : Store) : UseOp → Option Store
  | .call op => s.pageStep op
  | .rawPut key value flag expired crrntTime evictTime =>
    (s.rawPut key value flag expired crrntTime evictTime).map Prod.snd
  | .rawGet key value time => (s.rawGet key value time).map Prod.snd
  | .rawRemove key => (s.rawRemove key).map Prod.snd
  | .getMeta key info time => (s.getMeta key info time).map Prod.snd
  | .getNextItems bucketCount info list crrntTime =>
    (s.getNextItems bucketCount info list crrntTime).map Prod.snd
  | .closeChain bucketCount buckets crrntTime hashIndex =>
    sweepChain (closeVisit bucketCount buckets crrntTime) s hashIndex
  | .exprdChain crrntTime hashIndex => sweepChain (exprdVisit crrntTime) s hashIndex
  | .deletedChain hashIndex => sweepChain deletedVisit s hashIndex

/-- The store after a sequence of calls. -/
def useRun (s : Store) (ops : List UseOp) : Option Store := runFrom useStep s ops

/-- The store is settled and its statistics are right. -/
def Regular (s : Store) : Prop := ∃ g live, s.Settled g ∧ s.Audited g live

/-- The chains, the lists of items and of pages, and the statistics of a store fit together. -/
structure Consistent (s : Store) : Prop where
  slotted : s.Slotted
  counted : s.Counted
  paged : ∀ i < s.slabsCount, ∃ owned lists, (∀ p, s.Owns i p ↔ p ∈ owned) ∧
    Accounted (s.slab i) owned lists

variable {s s' s₀ : Store} {g g' : Ledger} {live : Finset ItemId} {param : MdbParam}
  {ops : List UseOp} {op : UseOp} {bucketCount time : UInt32} {buckets : List Int32}

theorem Regular.consistent (h : s.Regular) : s.Consistent := by
  obtain ⟨g, live, hs, hlive⟩ := h
  refine ⟨hs.slotted, hs.counted hlive, fun i hi => ?_⟩
  rw [hs.count_eq] at hi
  obtain ⟨lists, hacc⟩ := (hs.books i hi).accounted
  exact ⟨g.owned i, lists, fun p => hs.owns_iff hi, hacc⟩

/-! # Runs -/

theorem Settled.regular (h : s.Settled g) (hlive : s.Audited g live)
    (hmoves : ∃ g', Moves (s, g) (s', g')) : s'.Regular := by
  obtain ⟨g', hmoves⟩ := hmoves
  obtain ⟨live', hlive'⟩ := hmoves.audited h ⟨live, hlive⟩
  exact ⟨g', live', hmoves.settled h, hlive'⟩

theorem Settled.regular_changes (h : s.Settled g) (hlive : s.Audited g live)
    (hchanges : ∃ g', Changes (s, g) (s', g')) : s'.Regular := by
  obtain ⟨g', hchanges⟩ := hchanges
  exact h.regular hlive ⟨g', hchanges.moves⟩

theorem Settled.regular_losses (h : s.Settled g) (hlive : s.Audited g live)
    (hlosses : ∃ g', Losses (s, g) (s', g')) : s'.Regular := by
  obtain ⟨g', hlosses⟩ := hlosses
  exact h.regular hlive ⟨g', hlosses.changes.moves⟩

theorem Regular.pageStep {op : PageOp} (h : s.Regular) (hop : op.Admissible)
    (hstep : s.pageStep op = some s') : s'.Regular := by
  obtain ⟨g, live, hs, hlive⟩ := h
  cases op with
  | call op =>
    obtain ⟨-, hmoves⟩ := hs.step_moves hop hstep
    exact hs.regular hlive hmoves
  | freePage i =>
    obtain ⟨⟨code, s₁⟩, hfree, rfl⟩ := Option.map_eq_some_iff.mp hstep
    by_cases hi : i < s.slabsCount
    · by_cases hmany : 2 ≤ (s.slabs i).pagesNo
      · obtain ⟨s₂, g', live', hfree', hs', hlive'⟩ :=
          hs.freePage_audited hlive (hs.count_eq ▸ hi) hmany
        rw [hfree'] at hfree
        cases hfree
        exact ⟨g', live', hs', hlive'⟩
      · unfold Store.freePage at hfree
        simp only [if_pos hi] at hfree
        rw [if_pos (by omega)] at hfree
        cases hfree
        exact ⟨g, live, hs, hlive⟩
    · unfold Store.freePage at hfree
      rw [if_neg hi] at hfree
      cases hfree

/-- Every call keeps the store regular. -/
theorem Regular.useStep (h : s.Regular) (hop : op.Admissible) (hstep : s.useStep op = some s') :
    s'.Regular := by
  cases op with
  | call op => exact h.pageStep hop hstep
  | rawPut key value flag expired crrntTime evictTime =>
    obtain ⟨g, live, hs, hlive⟩ := h
    obtain ⟨⟨code, s₁⟩, hput, rfl⟩ := Option.map_eq_some_iff.mp hstep
    exact hs.regular_changes hlive (hs.rawPut_changes hop.1.1 hop.1.2 hop.2 hput)
  | rawGet key value time =>
    obtain ⟨g, live, hs, hlive⟩ := h
    obtain ⟨⟨r, s₁⟩, hget, rfl⟩ := Option.map_eq_some_iff.mp hstep
    exact hs.regular_losses hlive (hs.rawGet_losses hop hget)
  | rawRemove key =>
    obtain ⟨g, live, hs, hlive⟩ := h
    obtain ⟨⟨r, s₁⟩, hremove, rfl⟩ := Option.map_eq_some_iff.mp hstep
    exact hs.regular_losses hlive (hs.rawRemove_losses hop hremove)
  | getMeta key info time =>
    obtain ⟨g, live, hs, hlive⟩ := h
    obtain ⟨⟨r, s₁⟩, hget, rfl⟩ := Option.map_eq_some_iff.mp hstep
    exact hs.regular_losses hlive (hs.getMeta_losses hop hget)
  | getNextItems bucketCount info list crrntTime =>
    obtain ⟨g, live, hs, hlive⟩ := h
    obtain ⟨⟨r, s₁⟩, hnext, rfl⟩ := Option.map_eq_some_iff.mp hstep
    exact hs.regular_losses hlive (hs.getNextItems_losses (uniform_scanVisit hop) hnext)
  | closeChain bucketCount buckets crrntTime hashIndex =>
    obtain ⟨g, live, hs, hlive⟩ := h
    exact hs.regular_losses hlive (hs.sweepChain_losses (uniform_closeVisit hop) hstep)
  | exprdChain crrntTime hashIndex =>
    obtain ⟨g, live, hs, hlive⟩ := h
    exact hs.regular_losses hlive (hs.sweepChain_losses uniform_exprdVisit hstep)
  | deletedChain hashIndex =>
    obtain ⟨g, live, hs, hlive⟩ := h
    exact hs.regular_losses hlive (hs.sweepChain_losses uniform_deletedVisit hstep)

/-- Every run leaves a regular store. -/
theorem regular_run (hinit : Store.init param = some s₀) (hops : ∀ op ∈ ops, op.Admissible)
    (hrun : s₀.useRun ops = some s) : s.Regular := by
  obtain ⟨g₀, hempty⟩ := empty_init hinit
  apply runFrom_invariant (P := Regular) (C := UseOp.Admissible)
    (fun s op s' hop hs hstep => hs.useStep hop hstep) _ hops hrun
  exact ⟨g₀, _, hempty.settled, hempty.audited⟩

/-! # What is done with an item -/

section

variable {x : ItemId} {dbId : UInt32} (hcount : bucketCount ≠ 0)
include hcount

theorem visitOf_scanVisit_collect :
    visitOf (scanVisit bucketCount dbId time) s x = .collect ↔
      s.isItemExpired (s.mem.item x.addr) time = false ∧
        serverHash (s.keyOf x) bucketCount = dbId := by
  rw [visitOf, scanVisit_eq hcount, Option.getD_some, keyOf]
  cases s.isItemExpired (s.mem.item x.addr) time with
  | true =>
    rw [if_pos rfl]
    exact iff_of_false (by decide) fun hcollect => Bool.noConfusion hcollect.1
  | false =>
    rw [if_neg Bool.false_ne_true]
    split
    · next heq => exact iff_of_true rfl ⟨rfl, heq⟩
    · next hne => exact iff_of_false (by decide) fun hcollect => hne hcollect.2

theorem visitOf_scanVisit_remove :
    visitOf (scanVisit bucketCount dbId time) s x = .remove ↔
      s.isItemExpired (s.mem.item x.addr) time = true := by
  rw [visitOf, scanVisit_eq hcount, Option.getD_some]
  cases s.isItemExpired (s.mem.item x.addr) time with
  | true => exact iff_of_true rfl rfl
  | false =>
    rw [if_neg Bool.false_ne_true]
    split
    · exact iff_of_false (by decide) (by decide)
    · exact iff_of_false (by decide) (by decide)

theorem visitOf_closeVisit : visitOf (closeVisit bucketCount buckets time) s x = .remove ↔
    s.isItemExpired (s.mem.item x.addr) time = true ∨
      (serverHash (s.keyOf x) bucketCount).toInt32 ∈ buckets := by
  rw [visitOf, closeVisit_eq hcount, Option.getD_some, keyOf]
  split
  · next hgone => exact iff_of_true rfl hgone
  · next hkept => exact iff_of_false (by decide) hkept

end

/-! # Scans -/

/-- A record has the bytes of the key and of the value of its item, and their lengths. -/
theorem info_eq (h : s.Settled g) {x : ItemId} (hx : g.InUse x) :
    (s.mem.item x.addr).info.data = s.keyOf x ++ (s.mem.item x.addr).value ∧
      (s.mem.item x.addr).info.header.keysize.toNat = (s.keyOf x).length ∧
      (s.mem.item x.addr).info.header.valsize.toNat = (s.mem.item x.addr).value.length := by
  have hwhole := h.whole x hx
  have hkey : (s.mem.item x.addr).key.length = (s.mem.item x.addr).keyLen.toNat :=
    hwhole.length_key
  refine ⟨?_, ?_, ?_⟩
  · change (s.mem.item x.addr).data.take _ = _
    rw [List.take_add]
    rfl
  · change (UInt16.ofNat (s.mem.item x.addr).keyLen.toNat).toNat = _
    rw [keyOf, hkey, UInt16.toNat_ofNat_of_lt']
    exact (s.mem.item x.addr).keyLen.isLt.trans (by decide)
  · change ((s.mem.item x.addr).dataLen.setWidth 24).toNat = _
    rw [BitVec.toNat_setWidth_of_le (by decide), MdbItem.value, List.length_take, List.length_drop,
      hwhole.length_data]
    omega

/-- In every state reached, a scan ends. It collects a record of each item that is not expired
and belongs to the bucket of the server, and removes the expired items; nothing else changes. -/
theorem scan_run (hinit : Store.init param = some s₀) (hops : ∀ op ∈ ops, op.Admissible)
    (hrun : s₀.useRun ops = some s) (hcount : bucketCount ≠ 0) (info : MdInfo) (time : UInt32) :
    ∃ xs : List ItemId, ∃ s', s.scan bucketCount info time =
        some (xs.map fun x => (s.mem.item x.addr).info, s') ∧
      xs.Nodup ∧
      (∀ x, x ∈ xs ↔ s.Live x ∧ s.isItemExpired (s.mem.item x.addr) time = false ∧
        serverHash (s.keyOf x) bucketCount = info.dbId) ∧
      (∀ x ∈ xs, (s.mem.item x.addr).info.data = s.keyOf x ++ (s.mem.item x.addr).value ∧
        (s.mem.item x.addr).info.header.keysize.toNat = (s.keyOf x).length ∧
        (s.mem.item x.addr).info.header.valsize.toNat = (s.mem.item x.addr).value.length) ∧
      (∀ x, s'.Live x ↔ s.Live x ∧ s.isItemExpired (s.mem.item x.addr) time = false) ∧
      (∀ x, s'.Live x → (s'.mem.item x.addr).body = (s.mem.item x.addr).body) ∧
      s'.Slotted := by
  obtain ⟨g, live, hs, -⟩ := regular_run hinit hops hrun
  obtain ⟨s', g', xs, ys, hscan, hswept, hnodup, hxs, hys⟩ := hs.scanFrom (beginScan info) []
    (fun x _ => (uniform_scanVisit hcount).visits s x) (Nat.two_pow_pos _) (Nat.le_add_left ..)
  have hmem : ∀ x, x ∈ xs ↔ s.Live x ∧ s.isItemExpired (s.mem.item x.addr) time = false ∧
      serverHash (s.keyOf x) bucketCount = info.dbId := by
    intro x
    rw [hxs, visitOf_scanVisit_collect hcount, hs.live_iff]
    exact ⟨fun ⟨hx, hv, _⟩ => ⟨hx, hv⟩, fun ⟨hx, hv⟩ => ⟨hx, hv, Nat.zero_le _⟩⟩
  refine ⟨xs, s', hscan, hnodup, hmem, fun x hx => ?_, fun x => ?_, fun x hx => ?_,
    hswept.settled.slotted⟩
  · exact info_eq hs (hs.live_iff.mp ((hmem x).mp hx).1)
  · rw [hswept.settled.live_iff, hswept.inUse, hys,
      visitOf_scanVisit_remove hcount, hs.live_iff, ← Bool.not_eq_true]
    exact ⟨fun ⟨hx, hnot⟩ => ⟨hx, fun he => hnot ⟨hx, he, Nat.zero_le _⟩⟩,
      fun ⟨hx, he⟩ => ⟨hx, fun hgone => he hgone.2.1⟩⟩
  · exact hswept.body_eq x (hswept.settled.live_iff.mp hx)

/-- Three items are put, one of which expires; one goes and its page with it, and its key is put
again. -/
def rawUse : List UseOp :=
  [.rawPut [3, 0, 1] [10] 0 0 1 1, .rawPut [3, 0, 2] [20] 2 5 2 2, .rawPut [4, 0, 3] [30] 0 0 3 3,
    .rawRemove [3, 0, 1], .call (.freePage 0), .rawPut [3, 0, 1] [11] 1 0 4 4]

theorem admissible_rawUse : ∀ op ∈ rawUse, op.Admissible := by decide

theorem scan_rawUse : ∃ s list s', smallStore.useRun rawUse = some s ∧
    s.scan 2 ⟨7, 1⟩ 9 = some (list, s') ∧ s'.Slotted := by
  have hsome : (smallStore.useRun rawUse).isSome = true := by decide +kernel
  obtain ⟨s, hrun⟩ := Option.isSome_iff_exists.mp hsome
  obtain ⟨xs, s', hscan, -, -, -, -, -, hslotted⟩ :=
    scan_run init_smallParam admissible_rawUse hrun (by decide : (2 : UInt32) ≠ 0) ⟨7, 1⟩ 9
  exact ⟨s, _, s', hrun, hscan, hslotted⟩

/-- A key of area 3 that is too long for `key_len`. -/
def longKey (n : Nat) : List UInt8 := 3 :: 0 :: List.replicate n 1

theorem length_longKey (n : Nat) : (longKey n).length = n + 2 := by simp [longKey]

def longPut (n : Nat) : UseOp := .rawPut (longKey n) [4, 0] 0 0 1 1

theorem useRun_longPut {n : Nat} {code : Int}
    (hput : s₀.rawPut (longKey n) [4, 0] 0 0 1 1 = some (code, s)) :
    s₀.useRun [longPut n] = some s := by
  simp only [useRun, runFrom, useStep, longPut, hput, Option.map_some, Option.bind_some]

/-- Of a key of 4098 bytes the record of a scan has two. -/
theorem not_scan_longKey : Store.init smallParam = some smallStore ∧
    ∃ s s' record, smallStore.rawPut (longKey 4096) [4, 0] 0 0 1 1 = some (0, s) ∧
      smallStore.useRun [longPut 4096] = some s ∧ serverHash (longKey 4096) 1 = 0 ∧
      s.scan 1 ⟨0, 0⟩ 9 = some ([record], s') ∧ record.data = [3, 0, 4, 0] ∧
      record.data ≠ longKey 4096 ++ [4, 0] := by
  have hcalls : (smallStore.rawPut (longKey 4096) [4, 0] 0 0 1 1).any (fun r => r.1 = 0 ∧
      (r.2.scan 1 ⟨0, 0⟩ 9).any (fun r' =>
        r'.1.map ItemDataInfo.data = [[3, 0, 4, 0]]) = true) = true := by decide +kernel
  obtain ⟨⟨code, s⟩, hput, hrest⟩ := (Option.any_eq_true ..).mp hcalls
  obtain ⟨hcode, hscans⟩ := of_decide_eq_true hrest
  obtain ⟨⟨list, s'⟩, hscan, hlist⟩ := (Option.any_eq_true ..).mp hscans
  obtain rfl : code = 0 := hcode
  obtain ⟨record, hrecord, hdata⟩ := List.map_eq_singleton_iff.mp (of_decide_eq_true hlist)
  dsimp only at hrecord
  subst hrecord
  refine ⟨init_smallParam, s, s', record, hput, useRun_longPut hput, UInt32.mod_one, hscan, hdata, fun heq => ?_⟩
  have hlen : record.data.length = 4096 + 2 + 2 := by
    rw [heq, List.length_append, length_longKey]
    rfl
  rw [hdata] at hlen
  exact absurd hlen (by decide)

/-! # Closing buckets -/

/-- In every state reached, closing buckets ends. It removes the items that are expired or belong
to one of the buckets; nothing else changes. -/
theorem closeBuckets_run (hinit : Store.init param = some s₀) (hops : ∀ op ∈ ops, op.Admissible)
    (hrun : s₀.useRun ops = some s) (hcount : bucketCount ≠ 0) (buckets : List Int32)
    (time : UInt32) :
    ∃ s', s.closeBuckets bucketCount buckets (fun _ => time) = some s' ∧
      (∀ x, s'.Live x ↔ s.Live x ∧ s.isItemExpired (s.mem.item x.addr) time = false ∧
        (serverHash (s.keyOf x) bucketCount).toInt32 ∉ buckets) ∧
      (∀ x, s'.Live x → (s'.mem.item x.addr).body = (s.mem.item x.addr).body) ∧
      s'.Consistent := by
  obtain ⟨g, live, hs, hlive⟩ := regular_run hinit hops hrun
  obtain ⟨s', g', xs, hclose, hswept, hxs⟩ := hs.sweepTable (fun _ => time)
    s.bucketSize 0 fun x _ => (uniform_closeVisit hcount).visits s x
  refine ⟨s', hclose, fun x => ?_, fun x hx => ?_, ?_⟩
  · have hgone : x ∈ xs ↔ g.InUse x ∧ (s.isItemExpired (s.mem.item x.addr) time = true ∨
        (serverHash (s.keyOf x) bucketCount).toInt32 ∈ buckets) := by
      rw [hxs, visitOf_closeVisit hcount, Nat.zero_add]
      exact ⟨fun ⟨hx, hv, _⟩ => ⟨hx, hv⟩,
        fun ⟨hx, hv⟩ => ⟨hx, hv, Nat.zero_le _, s.getBucketIndex_lt _⟩⟩
    rw [hswept.settled.live_iff, hswept.inUse, hgone, hs.live_iff, ← Bool.not_eq_true]
    constructor
    · rintro ⟨hx, hnot⟩
      exact ⟨hx, fun he => hnot ⟨hx, Or.inl he⟩, fun hb => hnot ⟨hx, Or.inr hb⟩⟩
    · rintro ⟨hx, he, hb⟩
      exact ⟨hx, fun hall => hall.2.elim he hb⟩
  · exact hswept.body_eq x (hswept.settled.live_iff.mp hx)
  · exact (hs.regular_losses hlive ⟨g', hswept.losses⟩).consistent

theorem closeBuckets_rawUse : ∃ s s', smallStore.useRun rawUse = some s ∧
    s.closeBuckets 2 [1] (fun _ => 9) = some s' ∧ s'.Consistent := by
  have hsome : (smallStore.useRun rawUse).isSome = true := by decide +kernel
  obtain ⟨s, hrun⟩ := Option.isSome_iff_exists.mp hsome
  obtain ⟨s', hclose, -, -, hconsistent⟩ :=
    closeBuckets_run init_smallParam admissible_rawUse hrun (by decide : (2 : UInt32) ≠ 0) [1] 9
  exact ⟨s, s', hrun, hclose, hconsistent⟩

/-- A list that starts with an item, where the only chain is empty. -/
theorem not_slotted {x : ItemId} (hshift : s.hashShift = 0) (hchain : s.chainHead 0 = none)
    (hslabs : 0 < s.slabsCount) {k : Nat} (hhead : ((s.slabs 0).itemHead k).place = some x)
    (hnext : (s.mem.item x.addr).next.place = none) : ¬ s.Slotted := by
  intro hslotted
  have hin : s.InItemList 0 k x := by
    refine ⟨[x], seg_cons.mpr ⟨hhead, ?_⟩, List.mem_singleton_self x⟩
    exact seg_nil.mpr hnext
  have hlive := hslotted.listed 0 hslabs k x hin
  have hbucket : s.getBucketIndex (s.keyOf x) = 0 := by
    have hlt := s.getBucketIndex_lt (s.keyOf x)
    rw [bucketSize, hshift] at hlt
    omega
  obtain ⟨l, hl, hx⟩ := (hslotted.chain x hlive 0).mpr hbucket.symm
  rw [hchain] at hl
  obtain rfl := hl.unique (seg_nil.mpr rfl)
  exact List.not_mem_nil hx

/-- A key of 4096 bytes has the length 0 in its item, whose area is then read from the value: the
item goes, but stays in the list of the area of its key. -/
theorem not_closeBuckets_longKey : Store.init smallParam = some smallStore ∧
    ∃ s s', smallStore.rawPut (longKey 4094) [4, 0] 0 0 1 1 = some (0, s) ∧
      smallStore.useRun [longPut 4094] = some s ∧
      s.closeBuckets 1 [0] (fun _ => 9) = some s' ∧ ¬ s'.Consistent := by
  have hcalls : (smallStore.rawPut (longKey 4094) [4, 0] 0 0 1 1).any (fun r => r.1 = 0 ∧
      (r.2.closeBuckets 1 [0] (fun _ => 9)).any (fun s' => s'.hashShift = 0 ∧
        s'.chainHead 0 = none ∧ 0 < s'.slabsCount ∧
        ((s'.slabs 0).itemHead 3).place.any (fun x =>
          (s'.mem.item x.addr).next.place = none) = true) = true) = true := by decide +kernel
  obtain ⟨⟨code, s⟩, hput, hrest⟩ := (Option.any_eq_true ..).mp hcalls
  obtain ⟨hcode, hcloses⟩ := of_decide_eq_true hrest
  obtain ⟨s', hclose, hleft⟩ := (Option.any_eq_true ..).mp hcloses
  obtain ⟨hshift, hchain, hslabs, hlisted⟩ := of_decide_eq_true hleft
  obtain ⟨x, hhead, hnext⟩ := (Option.any_eq_true ..).mp hlisted
  obtain rfl : code = 0 := hcode
  have hnot := not_slotted hshift hchain hslabs hhead (of_decide_eq_true hnext)
  exact ⟨init_smallParam, s, s', hput, useRun_longPut hput, hclose,
    fun hconsistent => hnot hconsistent.slotted⟩

/-! # Flags -/

/-- In every state reached, a raw put keeps the flags of the item it replaces if and only if it
is given the deleted flag, or the item has it just when its size has the bit that is tested. -/
theorem keepsFlags_run {a : Addr} {key value : List UInt8} {flag : BitVec 32}
    {expired crrntTime evictTime : UInt32} {code : Int} (hinit : Store.init param = some s₀)
    (hops : ∀ op ∈ ops, op.Admissible) (hrun : s₀.useRun ops = some s)
    (hfind : s.find key = some (some a))
    (hput : s.rawPut key value flag expired crrntTime evictTime = some (code, s')) :
    ∃ b, s'.find key = some (some b) ∧
      (KeepsFlags (s.mem.item a).itemId (s'.mem.item b).itemId flag ↔
        testFlag (flag.setWidth 8) TAIR_ITEM_FLAG_DELETED = true ∨
          testFlag (s.mem.item a).itemId.itemFlags TAIR_ITEM_FLAG_DELETED =
            (s.mem.item a).itemId.slabSize.getLsbD 1) := by
  obtain ⟨g, live, hs, -⟩ := regular_run hinit hops hrun
  obtain ⟨b, hfind', hflags⟩ := hs.rawPut_flags hfind hput
  exact ⟨b, hfind', keepsFlags_iff hflags⟩

/-- An item without the flag is replaced by one with it. -/
theorem keepsFlags_rawUse : ∃ s a s' b, smallStore.useRun rawUse = some s ∧
    s.find [3, 0, 1] = some (some a) ∧
    s.rawPut [3, 0, 1] [12] 3 0 6 6 = some (0, s') ∧ s'.find [3, 0, 1] = some (some b) ∧
    KeepsFlags (s.mem.item a).itemId (s'.mem.item b).itemId 3 := by
  have hcalls : (smallStore.useRun rawUse).any (fun s => (s.find [3, 0, 1]).join.isSome ∧
      (s.rawPut [3, 0, 1] [12] 3 0 6 6).any (fun r => r.1 = 0) = true) = true := by decide +kernel
  obtain ⟨s, hrun, hrest⟩ := (Option.any_eq_true ..).mp hcalls
  obtain ⟨hfound, hput⟩ := of_decide_eq_true hrest
  obtain ⟨a, hfound⟩ := Option.isSome_iff_exists.mp hfound
  obtain ⟨⟨code, s'⟩, hput, hzero⟩ := (Option.any_eq_true ..).mp hput
  obtain rfl : code = 0 := of_decide_eq_true hzero
  have hfind := Option.join_eq_some_iff.mp hfound
  obtain ⟨b, hfind', hiff⟩ := keepsFlags_run init_smallParam admissible_rawUse hrun hfind hput
  exact ⟨s, a, s', b, hrun, hfind, hput, hfind', hiff.mpr (Or.inl (by decide))⟩

/-- The deleted flag of an item is lost when it is replaced. -/
theorem not_keepsFlags : Store.init smallParam = some smallStore ∧
    (∀ op ∈ rawUse, op.Admissible) ∧
    ∃ s a s' b, smallStore.useRun rawUse = some s ∧ s.find [3, 0, 2] = some (some a) ∧
      s.rawPut [3, 0, 2] [12] 0 0 6 6 = some (0, s') ∧ s'.find [3, 0, 2] = some (some b) ∧
      ¬ KeepsFlags (s.mem.item a).itemId (s'.mem.item b).itemId 0 := by
  have hcalls : (smallStore.useRun rawUse).any (fun s => (s.find [3, 0, 2]).join.any (fun a =>
      (s.rawPut [3, 0, 2] [12] 0 0 6 6).any (fun r => r.1 = 0 ∧
        (r.2.find [3, 0, 2]).join.any (fun b =>
          ¬ KeepsFlags (s.mem.item a).itemId (r.2.mem.item b).itemId 0) = true) = true) = true) =
      true := by decide +kernel
  obtain ⟨s, hrun, hrest⟩ := (Option.any_eq_true ..).mp hcalls
  obtain ⟨a, hfound, hrest⟩ := (Option.any_eq_true ..).mp (of_decide_eq_true hrest)
  obtain ⟨⟨code, s'⟩, hput, hrest⟩ := (Option.any_eq_true ..).mp (of_decide_eq_true hrest)
  obtain ⟨rfl, hfound'⟩ : code = 0 ∧ _ := of_decide_eq_true hrest
  obtain ⟨b, hfound', hnot⟩ := (Option.any_eq_true ..).mp hfound'
  exact ⟨init_smallParam, admissible_rawUse, s, a, s', b, hrun, Option.join_eq_some_iff.mp hfound,
    hput, Option.join_eq_some_iff.mp hfound', of_decide_eq_true hnot⟩

end Store

end Mdb
