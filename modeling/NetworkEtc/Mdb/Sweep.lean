-- SUMMARY: Walks along the hash chains that remove items as they go: scans, closing buckets.
import NetworkEtc.Mdb.Contents
import NetworkEtc.Mdb.RawCalls

/-!
# Walks along the chains

`get_next_items`, `close_buckets`, `remove_exprd_item` and `remove_deleted_item` go along hash
chains, remove some of the items they meet and go on at the link that they read before. A removal
changes the link that led to the item and the item's own, so what lies ahead stays as it was.
-/

namespace Mdb

open Library

/-! # `mur_mur_hash` -/

/-- A byte as an `int8_t`, with its sign. -/
def signedByte (c : UInt8) : UInt32 := c.toInt8.toInt32.toUInt32

/-- The loop of `mur_mur_hash2` and the bytes it leaves over, which have a sign here. -/
def murMurLoop (h : UInt32) : List UInt8 → UInt32
  | a :: b :: c :: d :: rest =>
    let k := Store.word a b c d * 0x5bd1e995
    let k := k ^^^ (k >>> 24)
    murMurLoop ((h * 0x5bd1e995) ^^^ (k * 0x5bd1e995)) rest
  | [a, b, c] =>
    (h ^^^ (signedByte c <<< 16) ^^^ (signedByte b <<< 8) ^^^ signedByte a) * 0x5bd1e995
  | [a, b] => (h ^^^ (signedByte b <<< 8) ^^^ signedByte a) * 0x5bd1e995
  | [a] => (h ^^^ signedByte a) * 0x5bd1e995
  | [] => h

/-- `mur_mur_hash` -/
def murMurHash (key : List UInt8) : UInt32 :=
  let h := murMurLoop (97 ^^^ UInt32.ofNat key.length) key
  let h := (h ^^^ (h >>> 13)) * 0x5bd1e995
  h ^^^ (h >>> 15)

/-- `server_hash`, the bucket of the server that the key of an item belongs to. -/
def serverHash (key : List UInt8) (bucketCount : UInt32) : UInt32 :=
  murMurHash (key.drop 2) % bucketCount

/-- `item_data_info`, as far as it is set. -/
structure ItemDataInfo where
  header : ItemMeta
  data : List UInt8
deriving DecidableEq

/-- The copy of an item that a scan makes. -/
def MdbItem.info (it : MdbItem) : ItemDataInfo where
  header := it.header
  data := it.data.take (it.keyLen.toNat + it.dataLen.toNat)

/-- What is done with an item that is met. -/
inductive Visit where
  | skip
  | remove
  | collect
deriving DecidableEq

namespace Store

/-! # The walks -/

/-- `get_bucket_size` -/
def bucketSize (s : Store) : Nat := 2 ^ s.hashShift

/-- The loop along one chain, which collects in `list`. -/
def walkChain (visit : Store → MdbItem → Option Visit) : Nat → ItemId → Store →
    List ItemDataInfo → Option (List ItemDataInfo × Store)
  | 0, _, _, _ => none
  | fuel + 1, itemHead, s, list =>
    if itemHead = 0 then some (list, s)
    else do
      let it := s.mem.item itemHead.addr
      match ← visit s it with
      | .skip => walkChain visit fuel it.hNext s list
      | .remove => do
        let s ← s.removeItem itemHead.addr
        walkChain visit fuel it.hNext s list
      | .collect => walkChain visit fuel it.hNext s (list ++ [it.info])

/-- One chain is swept, while the lock is held. -/
def sweepChain (visit : Store → MdbItem → Option Visit) (s : Store) (hashIndex : Nat) :
    Option Store :=
  (walkChain visit (maxItems + 1) (s.hashtable hashIndex) s []).map Prod.snd

/-- The loop over the table from `hashIndex` on; each chain with a reading of the clock. -/
def sweepTable (visit : UInt32 → Store → MdbItem → Option Visit) (times : Nat → UInt32) :
    Nat → Nat → Store → Option Store
  | 0, _, s => some s
  | n + 1, hashIndex, s => do
    let s ← sweepChain (visit (times hashIndex)) s hashIndex
    sweepTable visit times n (hashIndex + 1) s

/-- The body of the inner loop of `close_buckets`; `% 0` fails. -/
def closeVisit (bucketCount : UInt32) (buckets : List Int32) (crrntTime : UInt32) (s : Store)
    (it : MdbItem) : Option Visit :=
  if s.isItemExpired it crrntTime then some .remove
  else if bucketCount = 0 then none
  else if (serverHash it.key bucketCount).toInt32 ∈ buckets then some .remove
  else some .skip

/-- `close_buckets` -/
def closeBuckets (s : Store) (bucketCount : UInt32) (buckets : List Int32)
    (times : Nat → UInt32) : Option Store :=
  sweepTable (closeVisit bucketCount buckets) times s.bucketSize 0 s

/-- The body of the inner loop of `remove_exprd_item`. -/
def exprdVisit (crrntTime : UInt32) (s : Store) (it : MdbItem) : Option Visit :=
  some (if s.isItemExpired it crrntTime then .remove else .skip)

/-- `remove_exprd_item` -/
def removeExprdItem (s : Store) (times : Nat → UInt32) : Option Store :=
  sweepTable exprdVisit times s.bucketSize 0 s

/-- The body of the inner loop of `remove_deleted_item`. -/
def deletedVisit (_ : Store) (it : MdbItem) : Option Visit :=
  some (if testFlag it.itemId.itemFlags TAIR_ITEM_FLAG_DELETED then .remove else .skip)

/-- `remove_deleted_item`, which does not look at the clock. -/
def removeDeletedItem (s : Store) : Option Store :=
  sweepTable (fun _ => deletedVisit) (fun _ => 0) s.bucketSize 0 s

/-- `md_info` -/
structure MdInfo where
  hashIndex : Nat
  dbId : UInt32
deriving DecidableEq

/-- `begin_scan` -/
def beginScan (info : MdInfo) : MdInfo := { info with hashIndex := 0 }

/-- The body of the second loop of `get_next_items`; `% 0` fails. -/
def scanVisit (bucketCount dbId crrntTime : UInt32) (s : Store) (it : MdbItem) : Option Visit :=
  if s.isItemExpired it crrntTime then some .remove
  else if bucketCount = 0 then none
  else if serverHash it.key bucketCount ≠ dbId then some .skip
  else some .collect

/-- The first loop of `get_next_items`: the first of `n` chains that is not empty. -/
def seekChain (s : Store) : Nat → Nat → Nat
  | 0, hashIndex => hashIndex
  | n + 1, hashIndex =>
    if s.hashtable hashIndex = 0 then seekChain s n (hashIndex + 1) else hashIndex

/-- `get_next_items`: whether there is more, `info`, and `list`. -/
def getNextItems (s : Store) (bucketCount : UInt32) (info : MdInfo) (list : List ItemDataInfo)
    (crrntTime : UInt32) : Option ((Bool × MdInfo × List ItemDataInfo) × Store) :=
  let hashIndex := s.seekChain (s.bucketSize - info.hashIndex) info.hashIndex
  if s.bucketSize ≤ hashIndex then some ((false, { info with hashIndex }, list), s)
  else do
    let (list, s) ← walkChain (scanVisit bucketCount info.dbId crrntTime) (maxItems + 1)
      (s.hashtable hashIndex) s list
    let hashIndex := hashIndex + 1
    some ((decide (hashIndex < s.bucketSize), { info with hashIndex }, list), s)

/-- `get_next_items` again and again until it returns false, at most `fuel` times. -/
def scanFrom (bucketCount crrntTime : UInt32) : Nat → MdInfo → List ItemDataInfo → Store →
    Option (List ItemDataInfo × Store)
  | 0, _, _, _ => none
  | fuel + 1, info, list, s => do
    let ((more, info, list), s) ← s.getNextItems bucketCount info list crrntTime
    if more then scanFrom bucketCount crrntTime fuel info list s else some (list, s)

/-- A whole scan, from `begin_scan` on. No scan needs more calls than there are chains. -/
def scan (s : Store) (bucketCount : UInt32) (info : MdInfo) (crrntTime : UInt32) :
    Option (List ItemDataInfo × Store) :=
  scanFrom bucketCount crrntTime s.bucketSize (beginScan info) [] s

/-! # Links of the chains -/

section

variable {s s' : Slab} {a b : Addr} {p : Nat}

theorem hNext_unlinkItem (h : s.unlinkItem a = some s') :
    (s'.mem.item b).hNext = (s.mem.item b).hNext := by
  have hset : ∀ (mem : Memory) (c : Addr) (f : MdbItem → MdbItem),
      (∀ it, (f it).hNext = it.hNext) → ((mem.setItem c f).item b).hNext = (mem.item b).hNext := by
    intro mem c f hf
    rw [Memory.item_setItem]
    split
    · next heq => rw [hf, heq]
    · rfl
  unfold Slab.unlinkItem at h
  simp only at h
  split at h
  · rw [← Option.some.inj h]
    simp only
    split
    · split
      · rfl
      · exact hset _ _ _ fun _ => rfl
    · split
      · exact hset _ _ _ fun _ => rfl
      · rw [hset, hset]
        · exact fun _ => rfl
        · exact fun _ => rfl
  · exact absurd h (by simp)

theorem item_unfilePage (h : s.unfilePage p = some s') : s'.mem.item = s.mem.item := by
  unfold Slab.unfilePage at h
  simp only at h
  split at h
  · split at h
    · simp only [Option.bind_eq_bind, Option.bind_eq_some_iff, Option.some.injEq] at h
      obtain ⟨⟨mem₁, head⟩, hunlink, rfl⟩ := h
      exact item_unlinkPage hunlink
    · split at h
      · exact absurd h (by simp)
      · exact item_unlinkPartialPage h
  · exact absurd h (by simp)

theorem item_refilePage (h : Slab.refilePage s p = some s') : s'.mem.item = s.mem.item := by
  unfold Slab.refilePage at h
  split at h
  · simp only at h
    split at h
    · simp only [Option.bind_eq_bind, Option.bind_eq_some_iff, Option.some.injEq] at h
      obtain ⟨⟨mem₁, head⟩, hlink, rfl⟩ := h
      exact item_linkPage hlink
    · simp only [Option.bind_eq_bind, Option.bind_eq_some_iff, Option.some.injEq] at h
      obtain ⟨pool, -, rfl⟩ := h
      rfl
  · exact item_linkPartialPage h

/-- A freed item joins the free list of its page; no other link of a chain changes. -/
theorem hNext_freeItem (h : s.freeItem a = some s') (hba : b ≠ a) :
    (s'.mem.item b).hNext = (s.mem.item b).hNext := by
  unfold Slab.freeItem at h
  split at h
  · exact absurd h (by simp)
  · simp only [Option.bind_eq_bind, Option.bind_eq_some_iff] at h
    obtain ⟨s₁, hunlink, s₂, hunfile, hrefile⟩ := h
    rw [item_refilePage hrefile, ← hNext_unlinkItem hunlink, ← item_unfilePage hunfile]
    unfold Slab.giveItem
    rw [Memory.item_setPage, Memory.item_setItem_ne hba, Memory.item_setItem_ne hba]

end

variable {s s' s₁ s₂ : Store} {g g' g₁ g₂ : Ledger} {x y : ItemId} {xs ys l : List ItemId}

theorem hashShift_remove {a : Addr} (h : s.remove a = some s') : s'.hashShift = s.hashShift := by
  unfold Store.remove at h
  simp only at h
  split at h
  · exact absurd h (by simp)
  · rw [← Option.some.inj h]
  · rw [← Option.some.inj h]
    split
    · rfl
    · rfl

/-- `__remove` does not touch the links of the items ahead. -/
theorem Settled.chainNext_removeItem (h : s.Settled g) (hx : g.InUse x)
    (hremove : s.removeItem x.addr = some s') (hy : g.InUse y) (hyx : y ≠ x)
    (hnext : s.chainNext y ≠ some x) : s'.chainNext y = s.chainNext y := by
  have hne : y.addr ≠ x.addr := fun heq => hyx (h.placed.apart y x hy hx heq)
  unfold Store.removeItem at hremove
  simp only [Option.bind_eq_bind, Option.bind_eq_some_iff, Option.some.injEq] at hremove
  obtain ⟨s₁, hchain, s₂, hfree, rfl⟩ := hremove
  have hdropped : (s.dropStat x.addr).Kept g g.InUse := h.toKept.restat _ s.areaTimestamp
  have hfirst : s₁.chainNext y = s.chainNext y :=
    hdropped.chainNext_remove hx hchain hy hyx hnext
  unfold Store.freeItem at hfree
  simp only at hfree
  split at hfree
  · simp only [Option.bind_eq_bind, Option.bind_eq_some_iff, Option.some.injEq] at hfree
    obtain ⟨sl, hslab, rfl⟩ := hfree
    have hfreed := hNext_freeItem hslab hne
    rw [← hfirst, chainNext, chainNext, mem_setItem, Memory.item_setItem_ne hne, mem_setSlab,
      hfreed]
    simp only [slab, mem_setItem, Memory.item_setItem_ne hne]
  · exact absurd hfree (by simp)

theorem hashShift_removeItem {a : Addr} (h : s.removeItem a = some s') :
    s'.hashShift = s.hashShift := by
  unfold Store.removeItem at h
  simp only [Option.bind_eq_bind, Option.bind_eq_some_iff, Option.some.injEq] at h
  obtain ⟨s₁, hchain, s₂, hfree, rfl⟩ := h
  unfold Store.freeItem at hfree
  simp only at hfree
  split at hfree
  · simp only [Option.bind_eq_bind, Option.bind_eq_some_iff, Option.some.injEq] at hfree
    obtain ⟨sl, -, rfl⟩ := hfree
    have hsame := hashShift_remove hchain
    exact hsame
  · exact absurd hfree (by simp)

/-- What lies ahead of an item in its chain stays ahead when the item goes. -/
theorem Settled.seg_removeItem {pos : Option ItemId} (h : s.Settled g) (hx : g.InUse x)
    (hremove : s.removeItem x.addr = some s') (hseg : Seg s.chainNext pos l none)
    (hl : ∀ y ∈ l, g.InUse y) (hxl : x ∉ l) : Seg s'.chainNext pos l none := by
  apply hseg.congr
  intro y hy
  apply h.chainNext_removeItem hx hremove (hl y hy)
  · rintro rfl
    exact hxl hy
  · obtain ⟨l₁, l₂, rfl⟩ := List.append_of_mem hy
    rw [hseg.next_eq]
    intro hhead
    exact hxl (List.mem_append_right _ (List.mem_cons_of_mem _ (List.mem_of_mem_head? hhead)))

/-! # What a walk does -/

/-- `s'` is `s` without the items `xs`. -/
structure Swept (s s' : Store) (g g' : Ledger) (xs : List ItemId) : Prop where
  settled : s'.Settled g'
  losses : Losses (s, g) (s', g')
  inUse : ∀ y, g'.InUse y ↔ g.InUse y ∧ y ∉ xs
  body_eq : ∀ y, g'.InUse y → (s'.mem.item y.addr).body = (s.mem.item y.addr).body
  areaTimestamp_eq : s'.areaTimestamp = s.areaTimestamp
  hashShift_eq : s'.hashShift = s.hashShift

namespace Swept

theorem refl (h : s.Settled g) : s.Swept s g g [] :=
  ⟨h, .refl, by simp, fun _ _ => rfl, rfl, rfl⟩

theorem keyOf_eq (h : s.Swept s' g g' xs) (hy : g'.InUse y) : s'.keyOf y = s.keyOf y :=
  MdbItem.key_congr (h.body_eq y hy)

theorem getBucketIndex_eq (h : s.Swept s' g g' xs) : s'.getBucketIndex = s.getBucketIndex := by
  funext key
  unfold getBucketIndex
  rw [h.hashShift_eq]

theorem of_removed (hremove : s.removeItem x.addr = some s') (h : s.Removed s' g g' x) :
    s.Swept s' g g' [x] :=
  ⟨h.settled, .single (.removed h), fun y => by rw [h.given.inUse, List.mem_singleton], h.body_eq,
    h.areaTimestamp_eq, hashShift_removeItem hremove⟩

theorem append (h : s.Swept s₁ g g₁ xs) (h' : s₁.Swept s₂ g₁ g₂ ys) :
    s.Swept s₂ g g₂ (xs ++ ys) := by
  refine ⟨h'.settled, h.losses.trans h'.losses, fun y => ?_, fun y hy => ?_,
    h'.areaTimestamp_eq.trans h.areaTimestamp_eq, h'.hashShift_eq.trans h.hashShift_eq⟩
  · rw [h'.inUse, h.inUse, List.mem_append, not_or, and_assoc]
  · rw [h'.body_eq y hy, h.body_eq y ((h'.inUse y).mp hy).1]

end Swept

theorem MdbItem.info_congr {it it' : MdbItem} (h : it'.body = it.body) : it'.info = it.info :=
  (congrArg MdbItem.info h :)

/-- What is done with the item `x` of `s`, also when others have gone. -/
def Visits (visit : Store → MdbItem → Option Visit) (s : Store) (x : ItemId) (v : Visit) : Prop :=
  ∀ s' it, s'.areaTimestamp = s.areaTimestamp → it.body = (s.mem.item x.addr).body →
    visit s' it = some v

theorem Visits.swept {visit : Store → MdbItem → Option Visit} {v : Visit}
    (h : Visits visit s x v) (hs : s.Swept s' g g' xs) (hx : g'.InUse x) : Visits visit s' x v :=
  fun s'' it htimes hbody => h s'' it (htimes.trans hs.areaTimestamp_eq)
    (hbody.trans (hs.body_eq x hx))

/-- Something is done with every item; what, depends on the item and the times of the areas. -/
def Uniform (visit : Store → MdbItem → Option Visit) : Prop :=
  ∀ s it, (visit s it).isSome ∧ ∀ s' it', s'.areaTimestamp = s.areaTimestamp →
    it'.body = it.body → visit s' it' = visit s it

/-- What is done with the item `x` of `s`. -/
def visitOf (visit : Store → MdbItem → Option Visit) (s : Store) (x : ItemId) : Visit :=
  (visit s (s.mem.item x.addr)).getD .skip

theorem Uniform.visits {visit : Store → MdbItem → Option Visit} (h : Uniform visit) (s : Store)
    (x : ItemId) : Visits visit s x (visitOf visit s x) := by
  intro s' it htimes hbody
  obtain ⟨hsome, hsame⟩ := h s (s.mem.item x.addr)
  obtain ⟨v, hv⟩ := Option.isSome_iff_exists.mp hsome
  rw [hsame s' it htimes hbody, visitOf, hv, Option.getD_some]

/-- A walk along a chain collects and removes what it is told to, and nothing else changes. -/
theorem Settled.walkChain {fuel : Nat} {pos : ItemId} (h : s.Settled g)
    (visit : Store → MdbItem → Option Visit) (v : ItemId → Visit) (list : List ItemDataInfo)
    (hseg : Seg s.chainNext pos.place l none) (hnodup : l.Nodup) (hl : ∀ x ∈ l, g.InUse x)
    (hvisit : ∀ x ∈ l, Visits visit s x (v x)) (hfuel : l.length < fuel) :
    ∃ s' g', walkChain visit fuel pos s list =
        some (list ++ (l.filter fun x => v x = .collect).map fun x => (s.mem.item x.addr).info,
          s') ∧
      s.Swept s' g g' (l.filter fun x => v x = .remove) := by
  induction l generalizing s g fuel pos list with
  | nil =>
    cases fuel with
    | zero => exact absurd hfuel (Nat.lt_irrefl 0)
    | succ fuel =>
      have hzero : pos = 0 := ItemId.place_eq_none.mp hseg
      exact ⟨s, g, by simp [Store.walkChain, hzero], .refl h⟩
  | cons x l ih =>
    cases fuel with
    | zero => exact absurd hfuel (Nat.not_lt_zero _)
    | succ fuel =>
      obtain ⟨hpos, hrest⟩ := hseg
      obtain ⟨hne, hclear⟩ := ItemId.place_eq_some.mp hpos
      have haddr : pos.addr = x.addr := by rw [← hclear, ItemId.addr_clearFlags]
      obtain ⟨hxl, hnodup⟩ := List.nodup_cons.mp hnodup
      have hx := hl x (List.mem_cons_self ..)
      have hl' : ∀ y ∈ l, g.InUse y := fun y hy => hl y (List.mem_cons_of_mem _ hy)
      have hvisit' : ∀ y ∈ l, Visits visit s y (v y) :=
        fun y hy => hvisit y (List.mem_cons_of_mem _ hy)
      have hfuel' : l.length < fuel := Nat.lt_of_succ_lt_succ hfuel
      have hself := hvisit x (List.mem_cons_self ..) s _ rfl rfl
      unfold Store.walkChain
      simp only [if_neg hne, haddr, hself, Option.bind_eq_bind, Option.bind_some]
      cases hv : v x with
      | skip =>
        obtain ⟨s', g', hwalk, hswept⟩ := ih h list hrest hnodup hl' hvisit' hfuel'
        refine ⟨s', g', ?_, ?_⟩
        · simpa [hv] using hwalk
        · simpa [hv] using hswept
      | collect =>
        obtain ⟨s', g', hwalk, hswept⟩ :=
          ih h (list ++ [(s.mem.item x.addr).info]) hrest hnodup hl' hvisit' hfuel'
        refine ⟨s', g', ?_, ?_⟩
        · simpa [hv] using hwalk
        · simpa [hv] using hswept
      | remove =>
        obtain ⟨s₁, g₁, hremove, hremoved⟩ := h.removeItem hx
        have hfirst : s.Swept s₁ g g₁ [x] := .of_removed hremove hremoved
        have hleft : ∀ y ∈ l, g₁.InUse y := by
          intro y hy
          refine (hfirst.inUse y).mpr ⟨hl' y hy, ?_⟩
          rw [List.mem_singleton]
          rintro rfl
          exact hxl hy
        obtain ⟨s', g', hwalk, hswept⟩ := ih hfirst.settled list
          (h.seg_removeItem hx hremove hrest hl' hxl) hnodup hleft
          (fun y hy => (hvisit' y hy).swept hfirst (hleft y hy)) hfuel'
        have hinfo : (l.filter fun y => v y = .collect).map (fun y => (s₁.mem.item y.addr).info) =
            (l.filter fun y => v y = .collect).map fun y => (s.mem.item y.addr).info := by
          apply List.map_congr_left
          intro y hy
          exact MdbItem.info_congr (hfirst.body_eq y (hleft y (List.mem_of_mem_filter hy)))
        refine ⟨s', g', ?_, ?_⟩
        · simp only [hremove, Option.bind_some, hwalk, hinfo]
          simp [hv]
        · simpa [hv] using hfirst.append hswept

/-- The chain of a bucket, as a list. -/
theorem Settled.chainOf (h : s.Settled g) (b : Nat) :
    ∃ l, Seg s.chainNext (s.hashtable b).place l none ∧ l.Nodup ∧ l.length < maxItems + 1 ∧
      ∀ x, x ∈ l ↔ g.InUse x ∧ s.getBucketIndex (s.keyOf x) = b := by
  obtain ⟨l, hseg, hnodup, hmem⟩ := h.chained b
  refine ⟨l, hseg, hnodup, ?_, hmem⟩
  exact Nat.lt_succ_of_le (h.length_le hnodup fun x hx => ((hmem x).mp hx).1)

/-- Of a chain that is walked along items go, at most. -/
theorem Settled.walkChain_losses {visit : Store → MdbItem → Option Visit}
    {list list' : List ItemDataInfo} {b : Nat} (h : s.Settled g) (huniform : Uniform visit)
    (hwalk : Store.walkChain visit (maxItems + 1) (s.hashtable b) s list = some (list', s')) :
    ∃ g', Losses (s, g) (s', g') := by
  obtain ⟨l, hseg, hnodup, hfuel, hmem⟩ := h.chainOf b
  obtain ⟨s₁, g₁, hwalk', hswept⟩ := h.walkChain visit (visitOf visit s) list hseg hnodup
    (fun x hx => ((hmem x).mp hx).1) (fun x _ => huniform.visits s x) hfuel
  rw [hwalk, Option.some.injEq, Prod.mk.injEq] at hwalk'
  exact ⟨g₁, hwalk'.2 ▸ hswept.losses⟩

theorem Settled.sweepChain_losses {visit : Store → MdbItem → Option Visit} {b : Nat}
    (h : s.Settled g) (huniform : Uniform visit) (hsweep : sweepChain visit s b = some s') :
    ∃ g', Losses (s, g) (s', g') := by
  obtain ⟨⟨list, s₁⟩, hwalk, rfl⟩ := Option.map_eq_some_iff.mp hsweep
  exact h.walkChain_losses huniform hwalk

theorem Settled.getNextItems_losses {bucketCount time : UInt32} {info : MdInfo}
    {list : List ItemDataInfo} {r : Bool × MdInfo × List ItemDataInfo} (h : s.Settled g)
    (huniform : Uniform (scanVisit bucketCount info.dbId time))
    (hnext : s.getNextItems bucketCount info list time = some (r, s')) :
    ∃ g', Losses (s, g) (s', g') := by
  unfold getNextItems at hnext
  simp only at hnext
  split at hnext
  · rw [Option.some.injEq, Prod.mk.injEq] at hnext
    exact ⟨g, hnext.2 ▸ .refl⟩
  · simp only [Option.bind_eq_bind, Option.bind_eq_some_iff, Option.some.injEq,
      Prod.mk.injEq] at hnext
    obtain ⟨⟨list', s₁⟩, hwalk, -, rfl⟩ := hnext
    exact h.walkChain_losses huniform hwalk

/-- The table is swept from a bucket on: of the items in the next `n` chains those go that are to
be removed. -/
theorem Settled.sweepTable {visit : UInt32 → Store → MdbItem → Option Visit} {v : ItemId → Visit}
    (h : s.Settled g) (times : Nat → UInt32) (n b : Nat)
    (hvisit : ∀ x, g.InUse x →
      Visits (visit (times (s.getBucketIndex (s.keyOf x)))) s x (v x)) :
    ∃ s' g' xs, sweepTable visit times n b s = some s' ∧ s.Swept s' g g' xs ∧
      ∀ x, x ∈ xs ↔ g.InUse x ∧ v x = .remove ∧ b ≤ s.getBucketIndex (s.keyOf x) ∧
        s.getBucketIndex (s.keyOf x) < b + n := by
  induction n generalizing s g b with
  | zero =>
    refine ⟨s, g, [], rfl, .refl h, fun x => ?_⟩
    simp only [List.not_mem_nil, false_iff]
    rintro ⟨-, -, hle, hlt⟩
    omega
  | succ n ih =>
    obtain ⟨l, hseg, hnodup, hfuel, hmem⟩ := h.chainOf b
    obtain ⟨s₁, g₁, hwalk, hswept⟩ := h.walkChain (visit (times b)) v [] hseg hnodup
      (fun x hx => ((hmem x).mp hx).1)
      (fun x hx => ((hmem x).mp hx).2 ▸ hvisit x ((hmem x).mp hx).1) hfuel
    have hbucket : ∀ x, g₁.InUse x →
        s₁.getBucketIndex (s₁.keyOf x) = s.getBucketIndex (s.keyOf x) := by
      intro x hx
      rw [hswept.getBucketIndex_eq, hswept.keyOf_eq hx]
    obtain ⟨s', g', xs, hrest, hswept', hxs⟩ := ih hswept.settled (b + 1) fun x hx => by
      rw [hbucket x hx]
      exact (hvisit x ((hswept.inUse x).mp hx).1).swept hswept hx
    refine ⟨s', g', _, ?_, hswept.append hswept', fun x => ?_⟩
    · unfold Store.sweepTable sweepChain
      simp only [hwalk, Option.map_some, Option.bind_eq_bind, Option.bind_some, hrest]
    · rw [List.mem_append, hxs, List.mem_filter, hmem, decide_eq_true_eq]
      constructor
      · rintro (⟨⟨hx, hb⟩, hremove⟩ | ⟨hx, hremove, hle, hlt⟩)
        · exact ⟨hx, hremove, hb.ge, by omega⟩
        · rw [hbucket x hx] at hle hlt
          exact ⟨((hswept.inUse x).mp hx).1, hremove, by omega, by omega⟩
      · rintro ⟨hx, hremove, hle, hlt⟩
        rcases Nat.eq_or_lt_of_le hle with heq | hlt'
        · exact Or.inl ⟨⟨hx, heq.symm⟩, hremove⟩
        · have hx' : g₁.InUse x := by
            refine (hswept.inUse x).mpr ⟨hx, fun hfilter => ?_⟩
            have hb := ((hmem x).mp (List.mem_of_mem_filter hfilter)).2
            omega
          rw [hbucket x hx']
          exact Or.inr ⟨hx', hremove, by omega, by omega⟩

theorem getBucketIndex_lt (s : Store) (key : List UInt8) : s.getBucketIndex key < s.bucketSize := by
  unfold getBucketIndex bucketSize
  rw [Nat.and_two_pow_sub_one_eq_mod]
  exact Nat.mod_lt _ (Nat.two_pow_pos _)

/-! # What is done with an item -/

section

variable {it it' : MdbItem} {bucketCount dbId time : UInt32} {buckets : List Int32}

theorem isItemExpired_of_eq (htimes : s'.areaTimestamp = s.areaTimestamp)
    (hbody : it'.body = it.body) : s'.isItemExpired it' time = s.isItemExpired it time := by
  rw [isItemExpired_congr hbody]
  unfold isItemExpired
  rw [htimes]

theorem uniform_exprdVisit : Uniform (exprdVisit time) := by
  refine fun s it => ⟨rfl, fun s' it' htimes hbody => ?_⟩
  unfold exprdVisit
  rw [isItemExpired_of_eq htimes hbody]

theorem uniform_deletedVisit : Uniform deletedVisit := by
  refine fun s it => ⟨rfl, fun s' it' _ hbody => ?_⟩
  unfold deletedVisit
  rw [MdbItem.itemId_congr hbody]

theorem closeVisit_eq (hcount : bucketCount ≠ 0) : closeVisit bucketCount buckets time s it =
    some (if s.isItemExpired it time ∨ (serverHash it.key bucketCount).toInt32 ∈ buckets
      then .remove else .skip) := by
  unfold closeVisit
  rw [if_neg hcount]
  split
  · next hexpired => rw [if_pos (Or.inl hexpired)]
  · next hexpired =>
    split
    · next hmem => rw [if_pos (Or.inr hmem)]
    · next hmem => rw [if_neg (not_or.mpr ⟨hexpired, hmem⟩)]

theorem uniform_closeVisit (hcount : bucketCount ≠ 0) :
    Uniform (closeVisit bucketCount buckets time) := by
  refine fun s it => ⟨?_, fun s' it' htimes hbody => ?_⟩
  · rw [closeVisit_eq hcount]
    rfl
  · rw [closeVisit_eq hcount, closeVisit_eq hcount, isItemExpired_of_eq htimes hbody,
      MdbItem.key_congr hbody]

theorem scanVisit_eq (hcount : bucketCount ≠ 0) : scanVisit bucketCount dbId time s it =
    some (if s.isItemExpired it time then .remove
      else if serverHash it.key bucketCount = dbId then .collect else .skip) := by
  unfold scanVisit
  rw [if_neg hcount]
  simp only [ne_eq, ite_not]
  split
  · rfl
  · split
    · rfl
    · rfl

theorem uniform_scanVisit (hcount : bucketCount ≠ 0) :
    Uniform (scanVisit bucketCount dbId time) := by
  refine fun s it => ⟨?_, fun s' it' htimes hbody => ?_⟩
  · rw [scanVisit_eq hcount]
    rfl
  · rw [scanVisit_eq hcount, scanVisit_eq hcount, isItemExpired_of_eq htimes hbody,
      MdbItem.key_congr hbody]

end

/-! # Scans -/

theorem Settled.bucket_ne (h : s.Settled g) {b : Nat} (hzero : s.hashtable b = 0)
    (hx : g.InUse x) : s.getBucketIndex (s.keyOf x) ≠ b := by
  intro hb
  obtain ⟨l, hseg, -, -, hmem⟩ := h.chainOf b
  have hnil : l = [] := by
    rw [hzero] at hseg
    exact hseg.unique (m := []) rfl
  have hxl := (hmem x).mpr ⟨hx, hb⟩
  rw [hnil] at hxl
  exact absurd hxl List.not_mem_nil

/-- The chains that are passed over are empty. -/
theorem seekChain_spec (s : Store) (n i : Nat) : i ≤ s.seekChain n i ∧
    ∀ k, i ≤ k → k < s.seekChain n i → s.hashtable k = 0 := by
  induction n generalizing i with
  | zero => exact ⟨le_rfl, fun k hk hlt => absurd hlt (Nat.not_lt.mpr hk)⟩
  | succ n ih =>
    unfold seekChain
    split
    · next hzero =>
      obtain ⟨hle, hall⟩ := ih (i + 1)
      refine ⟨by omega, fun k hk hlt => ?_⟩
      rcases Nat.eq_or_lt_of_le hk with rfl | hk
      · exact hzero
      · exact hall k hk hlt
    · exact ⟨le_rfl, fun k hk hlt => absurd hlt (Nat.not_lt.mpr hk)⟩

/-- From some bucket on, a scan collects what it is told to, and removes what it is told to. -/
theorem Settled.scanFrom {bucketCount crrntTime : UInt32} {v : ItemId → Visit} {fuel : Nat}
    (h : s.Settled g) (info : MdInfo) (list : List ItemDataInfo)
    (hvisit : ∀ x, g.InUse x → Visits (scanVisit bucketCount info.dbId crrntTime) s x (v x))
    (hpos : 0 < fuel) (hfuel : s.bucketSize ≤ info.hashIndex + fuel) :
    ∃ s' g', ∃ xs ys : List ItemId, scanFrom bucketCount crrntTime fuel info list s =
        some (list ++ xs.map fun x => (s.mem.item x.addr).info, s') ∧
      s.Swept s' g g' ys ∧ xs.Nodup ∧
      (∀ x, x ∈ xs ↔ g.InUse x ∧ v x = .collect ∧
        info.hashIndex ≤ s.getBucketIndex (s.keyOf x)) ∧
      ∀ x, x ∈ ys ↔ g.InUse x ∧ v x = .remove ∧
        info.hashIndex ≤ s.getBucketIndex (s.keyOf x) := by
  induction fuel generalizing s g info list with
  | zero => exact absurd hpos (Nat.lt_irrefl 0)
  | succ fuel ih =>
    obtain ⟨hle, hempty⟩ := s.seekChain_spec (s.bucketSize - info.hashIndex) info.hashIndex
    unfold Store.scanFrom getNextItems
    simp only
    generalize s.seekChain (s.bucketSize - info.hashIndex) info.hashIndex = b at hle hempty
    have hfrom : ∀ x, g.InUse x → info.hashIndex ≤ s.getBucketIndex (s.keyOf x) →
        b ≤ s.getBucketIndex (s.keyOf x) := by
      intro x hx hfrom
      by_contra hlt
      exact h.bucket_ne (hempty _ hfrom (Nat.not_le.mp hlt)) hx rfl
    split
    · next hend =>
      have hnone : ∀ x, g.InUse x → ¬ info.hashIndex ≤ s.getBucketIndex (s.keyOf x) := by
        intro x hx hge
        have hlt := s.getBucketIndex_lt (s.keyOf x)
        have hb := hfrom x hx hge
        omega
      refine ⟨s, g, [], [], by simp, .refl h, List.nodup_nil, fun x => ?_, fun x => ?_⟩
      · simp only [List.not_mem_nil, false_iff]
        exact fun hx => hnone x hx.1 hx.2.2
      · simp only [List.not_mem_nil, false_iff]
        exact fun hx => hnone x hx.1 hx.2.2
    · next hb =>
      obtain ⟨l, hseg, hnodup, hlen, hmem⟩ := h.chainOf b
      obtain ⟨s₁, g₁, hwalk, hswept⟩ := h.walkChain
        (scanVisit bucketCount info.dbId crrntTime) v list hseg hnodup
        (fun x hx => ((hmem x).mp hx).1) (fun x hx => hvisit x ((hmem x).mp hx).1) hlen
      have hbucket : ∀ x, g₁.InUse x →
          s₁.getBucketIndex (s₁.keyOf x) = s.getBucketIndex (s.keyOf x) := by
        intro x hx
        rw [hswept.getBucketIndex_eq, hswept.keyOf_eq hx]
      have hsize : s₁.bucketSize = s.bucketSize := by
        unfold bucketSize
        rw [hswept.hashShift_eq]
      have hhere : ∀ (w : Visit) (x : ItemId), x ∈ l.filter (fun x => v x = w) ↔
          g.InUse x ∧ v x = w ∧ s.getBucketIndex (s.keyOf x) = b := by
        intro w x
        rw [List.mem_filter, hmem, decide_eq_true_eq, and_assoc, and_comm (b := v x = w)]
      simp only [hwalk, Option.bind_eq_bind, Option.bind_some, decide_eq_true_eq]
      split
      · next hmore =>
        obtain ⟨s', g', xs, ys, hscan, hswept', hxs_nodup, hxs, hys⟩ :=
          ih hswept.settled { info with hashIndex := b + 1 }
            (list ++ (l.filter fun x => v x = .collect).map fun x => (s.mem.item x.addr).info)
            (fun x hx => (hvisit x ((hswept.inUse x).mp hx).1).swept hswept hx) (by omega)
            (by rw [hsize]; simp only; omega)
        have hboth : ∀ (w : Visit) (zs : List ItemId), (∀ x, x ∈ zs ↔ g₁.InUse x ∧ v x = w ∧
              b + 1 ≤ s₁.getBucketIndex (s₁.keyOf x)) →
            ∀ x, x ∈ l.filter (fun x => v x = w) ++ zs ↔ g.InUse x ∧ v x = w ∧
              info.hashIndex ≤ s.getBucketIndex (s.keyOf x) := by
          intro w zs hzs x
          rw [List.mem_append, hhere, hzs]
          constructor
          · rintro (⟨hx, hw, hxb⟩ | ⟨hx, hw, hxb⟩)
            · exact ⟨hx, hw, by omega⟩
            · rw [hbucket x hx] at hxb
              exact ⟨((hswept.inUse x).mp hx).1, hw, by omega⟩
          · rintro ⟨hx, hw, hxb⟩
            rcases Nat.eq_or_lt_of_le (hfrom x hx hxb) with heq | hlt
            · exact Or.inl ⟨hx, hw, heq.symm⟩
            · have hx' : g₁.InUse x := by
                refine (hswept.inUse x).mpr ⟨hx, fun hremoved => ?_⟩
                have hxb' := ((hhere .remove x).mp hremoved).2.2
                omega
              exact Or.inr ⟨hx', hw, by rw [hbucket x hx']; omega⟩
        refine ⟨s', g', _, _, ?_, hswept.append hswept', ?_, hboth .collect xs hxs,
          hboth .remove ys hys⟩
        · rw [hscan, List.map_append, List.append_assoc]
          congr 4
          apply List.map_congr_left
          intro x hx
          exact MdbItem.info_congr (hswept.body_eq x ((hxs x).mp hx).1)
        · refine List.nodup_append.mpr ⟨hnodup.filter _, hxs_nodup, fun x hx y hy => ?_⟩
          rintro rfl
          obtain ⟨hx', -, hxb⟩ := (hxs x).mp hy
          have hxb' := ((hhere .collect x).mp hx).2.2
          rw [hbucket x hx'] at hxb
          simp only at hxb
          omega
      · next hmore =>
        have hall : ∀ (w : Visit) (x : ItemId), x ∈ l.filter (fun x => v x = w) ↔
            g.InUse x ∧ v x = w ∧ info.hashIndex ≤ s.getBucketIndex (s.keyOf x) := by
          intro w x
          rw [hhere]
          constructor
          · rintro ⟨hx, hw, hxb⟩
            exact ⟨hx, hw, by omega⟩
          · rintro ⟨hx, hw, hxb⟩
            have hlt := s.getBucketIndex_lt (s.keyOf x)
            have hb' := hfrom x hx hxb
            exact ⟨hx, hw, by omega⟩
        exact ⟨s₁, g₁, _, _, rfl, hswept, hnodup.filter _, hall .collect, hall .remove⟩

end Store

end Mdb
