-- SUMMARY: What servers are capable of adds up to the buckets, and what comes of a table when its buckets are distributed evenly.
import NetworkEtc.Tair.Rebuilt
import NetworkEtc.Tair.TableBuilder1
import Mathlib.Algebra.BigOperators.Group.Finset.Lemmas
import Mathlib.Algebra.BigOperators.Ring.Finset

/-!
# Balanced tables

A server should have the quotient of the number of buckets by the number of servers, or one more.
As many servers as the remainder says get one more.
-/

namespace Tair

open Library

-- ---------------------------------------------------------------------------
-- Quotients
-- ---------------------------------------------------------------------------

theorem toInt_toInt32 {x : UInt32} (h : x.toNat < 2 ^ 31) : x.toInt32.toInt = x.toNat := by
  rw [← UInt32.ofNat_toNat (x := x), UInt32.toInt32_ofNat', Int32.toInt_ofNat_of_lt h,
    UInt32.ofNat_toNat]

/-- Below `2 ^ 31` the `int`s are what they should be. -/
theorem perNode_eq {total : UInt32} {size : Nat} (htotal : total.toNat < 2 ^ 31) (hpos : 0 < size)
    (hsize : size < 2 ^ 31) : perNode total size =
      ⟨(total.toNat / size : Nat), (total.toNat % size : Nat), size - (total.toNat % size : Nat)⟩ := by
  have hofNat : (UInt32.ofNat size).toNat = size :=
    UInt32.toNat_ofNat_of_lt' (by change size < 2 ^ 32; omega)
  have hmin : (total / UInt32.ofNat size).toNat = total.toNat / size := by
    rw [UInt32.toNat_div, hofNat]
  have hle : total.toNat / size ≤ total.toNat := Nat.div_le_self ..
  have hdivmod : total.toNat / size * size + total.toNat % size = total.toNat := Nat.div_add_mod' ..
  have hmod : total.toNat % size < size := Nat.mod_lt _ hpos
  have hmul : (total / UInt32.ofNat size * UInt32.ofNat size).toNat = total.toNat / size * size := by
    rw [UInt32.toNat_mul, hmin, hofNat, Nat.mod_eq_of_lt (by omega)]
  have hmax : (total - total / UInt32.ofNat size * UInt32.ofNat size).toNat = total.toNat % size := by
    rw [UInt32.toNat_sub_of_le _ _ (UInt32.le_iff_toNat_le.mpr (by omega)), hmul]
    omega
  have hmaxInt : (total - total / UInt32.ofNat size * UInt32.ofNat size).toInt32.toInt =
      (total.toNat % size : Nat) := by
    rw [toInt_toInt32 (by omega), hmax]
  unfold perNode
  dsimp only
  rw [UInt32.toUInt32_toInt32, Int32.toInt_sub, hmaxInt, toInt_toInt32 (by omega), hmin,
    Int32.toInt_ofNat_of_lt hsize, Int.bmod_eq_of_le (by omega) (by omega)]

-- ---------------------------------------------------------------------------
-- Capacities
-- ---------------------------------------------------------------------------

variable {per : PerNode} {pre : Int} {count : ServerId → Int}

theorem assignCapable_of_notMem {ids : List ServerId} {id : ServerId} (hid : id ∉ ids)
    (i maxS : Int) (capable : ServerId → Int) :
    assignCapable per pre count ids i maxS capable id = capable id := by
  induction ids generalizing i maxS capable with
  | nil => rfl
  | cons id' ids ih =>
    have hne := List.ne_of_not_mem_cons hid
    have hid := List.not_mem_of_not_mem_cons hid
    unfold assignCapable
    split
    · split
      · rw [ih hid, Function.update_of_ne hne]
      · rw [ih hid, Function.update_of_ne hne]
    · split
      · rw [ih hid, Function.update_of_ne hne]
      · rw [ih hid, Function.update_of_ne hne]

/-- `maxS` never gets too large, and neither does the number of the others: so in the end both are
what they should be. -/
theorem assignCapable_spec (per : PerNode) (pre : Int) (count : ServerId → Int)
    {ids : List ServerId} (hnodup : ids.Nodup) (i maxS : Int) (capable : ServerId → Int)
    (hmax : maxS ≤ per.maxCount) (hmin : i - maxS ≤ per.minCount)
    (hlen : i + ids.length = per.maxCount + per.minCount) :
    (∀ id ∈ ids, assignCapable per pre count ids i maxS capable id = per.min ∨
      assignCapable per pre count ids i maxS capable id = per.min + 1) ∧
    (ids.map (assignCapable per pre count ids i maxS capable)).sum =
      ids.length * per.min + (per.maxCount - maxS) := by
  induction ids generalizing i maxS capable with
  | nil =>
    simp only [List.length_nil] at hlen
    refine ⟨fun id hid => absurd hid List.not_mem_nil, ?_⟩
    simp only [List.map_nil, List.sum_nil, List.length_nil]
    omega
  | cons id ids ih =>
    obtain ⟨hnot, hnodup⟩ := List.nodup_cons.mp hnodup
    rw [List.length_cons] at hlen
    -- what the loop does with `id`, and what it does with the others
    have hstep : ∀ (value maxS' : Int),
        (value = per.min ∧ maxS' = maxS ∨ value = per.min + 1 ∧ maxS' = maxS + 1) →
        maxS' ≤ per.maxCount → i + 1 - maxS' ≤ per.minCount →
        (∀ id' ∈ id :: ids, assignCapable per pre count ids (i + 1) maxS'
            (Function.update capable id value) id' = per.min ∨
          assignCapable per pre count ids (i + 1) maxS'
            (Function.update capable id value) id' = per.min + 1) ∧
        ((id :: ids).map (assignCapable per pre count ids (i + 1) maxS'
            (Function.update capable id value))).sum =
          (id :: ids).length * per.min + (per.maxCount - maxS) := by
      intro value maxS' hvalue hmax' hmin'
      obtain ⟨hall, hsum⟩ := ih hnodup (i + 1) maxS' (Function.update capable id value) hmax' hmin'
        (by omega)
      have hself : assignCapable per pre count ids (i + 1) maxS'
          (Function.update capable id value) id = value := by
        rw [assignCapable_of_notMem hnot, Function.update_self]
      constructor
      · intro id' hid'
        rcases List.mem_cons.mp hid' with rfl | hid'
        · rw [hself]
          omega
        · exact hall id' hid'
      · rw [List.map_cons, List.sum_cons, hself, hsum, List.length_cons]
        push_cast
        rw [Int.add_mul]
        omega
    unfold assignCapable
    split
    · split
      · exact hstep _ _ (Or.inl ⟨rfl, rfl⟩) hmax (by omega)
      · exact hstep _ _ (Or.inr ⟨rfl, rfl⟩) (by omega) (by omega)
    · split
      · exact hstep _ _ (Or.inr ⟨rfl, rfl⟩) (by omega) (by omega)
      · exact hstep _ _ (Or.inl ⟨rfl, rfl⟩) hmax (by omega)

-- ---------------------------------------------------------------------------
-- What may be where
-- ---------------------------------------------------------------------------

namespace TableBuilder1

open TableBuilder

variable {b c : TableBuilder TableBuilder1} {table source : HashTable} {id : ServerId}
  {line idx level : Nat} {inUse : Bool}

/-- What is wrong with another copy of the bucket. -/
def clash (table : HashTable) (idx line level : Nat) (id : ServerId) (i : Nat) : Option NodeState :=
  if i = line then none
  else if (table i idx).first = id.first then some .sameNode
  else if level < CONSIDER_BASE ∧ (table i idx).second = id.second then some .samePos
  else none

theorem clash_eq_none {i : Nat} : clash table idx line level id i = none ↔
    (i ≠ line → (table i idx).first ≠ id.first ∧
      (level < CONSIDER_BASE → (table i idx).second ≠ id.second)) := by
  unfold clash
  split
  · next hi => simp [hi]
  · next hi =>
    split
    · next hfirst => simp [hi, hfirst]
    · next hfirst =>
      split
      · next hsecond => simp [hi, hsecond.1, hsecond.2]
      · next hsecond =>
        simp only [true_iff]
        exact fun _ => ⟨hfirst, fun hlevel heq => hsecond ⟨hlevel, heq⟩⟩

theorem getD_clash_eq_nodeOk {l : List Nat} :
    (l.findSome? (clash table idx line level id)).getD .nodeOk = .nodeOk ↔
      ∀ i ∈ l, clash table idx line level id i = none := by
  induction l with
  | nil => simp
  | cons i l ih =>
    rw [List.findSome?_cons, List.forall_mem_cons, ← ih]
    cases hclash : clash table idx line level id i with
    | none => simp
    | some state =>
      simp only [Option.getD_some, reduceCtorEq, false_and, iff_false]
      rintro rfl
      unfold clash at hclash
      split at hclash
      · exact absurd hclash (by simp)
      · split at hclash
        · exact absurd hclash (by simp)
        · split at hclash
          · exact absurd hclash (by simp)
          · exact absurd hclash (by simp)

/-- When a server is good. -/
structure Good (b : TableBuilder TableBuilder1) (id : ServerId) (line idx : Nat) (table : HashTable)
    (level : Nat) (turn : Int) : Prop where
  available : b.isNodeAvailble id = true
  master : line = 0 → b.mtokens.countInNode id < b.mtokens.capable id + turn
  bucket : line ≠ 0 → level = CONSIDER_ALL →
    b.tokens.countInNode id < b.tokens.capable id + turn
  now : line ≠ 0 → level ≠ CONSIDER_ALL → level ≠ CONSIDER_FORCE →
    b.tokensCountInNodeNow id < b.own.tokensPerNodeMin + turn ∨
      b.maxCountNow < b.own.tokensPerNodeMaxCount + turn
  apart : ¬ (line = 0 ∧ level = CONSIDER_BASE) → ∀ i < b.copyCount.toNat, i ≠ line →
    (table i idx).first ≠ id.first ∧
      (level < CONSIDER_BASE → (table i idx).second ≠ id.second)

theorem isThisNodeOK_iff : isThisNodeOK b id line idx table level inUse = .nodeOk ↔
    Good b id line idx table level (if inUse then 1 else 0) := by
  have hclash : isThisNodeOK b id line idx table level inUse =
      if b.isNodeAvailble id = false then .invalidNode
      else if line = 0 ∧
          b.mtokens.capable id + (if inUse then 1 else 0) ≤ b.mtokens.countInNode id then
        .toomanyMaster
      else if line ≠ 0 ∧ level = CONSIDER_ALL ∧
          b.tokens.capable id + (if inUse then 1 else 0) ≤ b.tokens.countInNode id then
        .toomanyBucket
      else if line ≠ 0 ∧ level ≠ CONSIDER_ALL ∧ level ≠ CONSIDER_FORCE ∧
          b.own.tokensPerNodeMin + (if inUse then 1 else 0) ≤ b.tokensCountInNodeNow id ∧
          b.own.tokensPerNodeMaxCount + (if inUse then 1 else 0) ≤ b.maxCountNow then
        .toomanyBucket
      else if line = 0 ∧ level = CONSIDER_BASE then .nodeOk
      else ((List.range b.copyCount.toNat).findSome? (clash table idx line level id)).getD
        .nodeOk := rfl
  rw [hclash]
  generalize (if inUse then (1 : Int) else 0) = turn
  by_cases havail : b.isNodeAvailble id = false
  · rw [if_pos havail]
    simp only [reduceCtorEq, false_iff]
    exact fun h => absurd (h.available.symm.trans havail) Bool.true_eq_false_eq_False
  rw [if_neg havail]
  by_cases hmaster : line = 0 ∧ b.mtokens.capable id + turn ≤ b.mtokens.countInNode id
  · rw [if_pos hmaster]
    simp only [reduceCtorEq, false_iff]
    exact fun h => absurd (h.master hmaster.1) (Int.not_lt.mpr hmaster.2)
  rw [if_neg hmaster]
  by_cases hbucket : line ≠ 0 ∧ level = CONSIDER_ALL ∧
      b.tokens.capable id + turn ≤ b.tokens.countInNode id
  · rw [if_pos hbucket]
    simp only [reduceCtorEq, false_iff]
    exact fun h => absurd (h.bucket hbucket.1 hbucket.2.1) (Int.not_lt.mpr hbucket.2.2)
  rw [if_neg hbucket]
  by_cases hnow : line ≠ 0 ∧ level ≠ CONSIDER_ALL ∧ level ≠ CONSIDER_FORCE ∧
      b.own.tokensPerNodeMin + turn ≤ b.tokensCountInNodeNow id ∧
      b.own.tokensPerNodeMaxCount + turn ≤ b.maxCountNow
  · rw [if_pos hnow]
    simp only [reduceCtorEq, false_iff]
    intro h
    rcases h.now hnow.1 hnow.2.1 hnow.2.2.1 with hlt | hlt
    · exact absurd hlt (Int.not_lt.mpr hnow.2.2.2.1)
    · exact absurd hlt (Int.not_lt.mpr hnow.2.2.2.2)
  rw [if_neg hnow]
  have hrest : (¬ (line = 0 ∧ level = CONSIDER_BASE) → ∀ i < b.copyCount.toNat, i ≠ line →
      (table i idx).first ≠ id.first ∧
        (level < CONSIDER_BASE → (table i idx).second ≠ id.second)) ↔
      Good b id line idx table level turn := by
    constructor
    · intro hapart
      refine ⟨by simpa using havail, fun hline => ?_, fun hline hlevel => ?_,
        fun hline hall hforce => ?_, hapart⟩
      · exact Int.not_le.mp fun hle => hmaster ⟨hline, hle⟩
      · exact Int.not_le.mp fun hle => hbucket ⟨hline, hlevel, hle⟩
      · by_contra hnone
        rw [not_or, Int.not_lt, Int.not_lt] at hnone
        exact hnow ⟨hline, hall, hforce, hnone⟩
    · exact fun h => h.apart
  rw [← hrest]
  by_cases hbase : line = 0 ∧ level = CONSIDER_BASE
  · rw [if_pos hbase]
    simp [hbase]
  · rw [if_neg hbase, getD_clash_eq_nodeOk]
    simp only [hbase, not_false_eq_true, true_imp_iff, List.mem_range, clash_eq_none]

theorem lawful : builder.Lawful where
  available _ _ _ _ _ _ _ h := (isThisNodeOK_iff.mp h).available
  master_lt _ _ _ _ _ _ h := (isThisNodeOK_iff.mp h).master rfl
  master_ok _ _ _ _ _ havail hlt := isThisNodeOK_iff.mpr
    { available := havail
      master := fun _ => hlt
      bucket := fun hline => absurd rfl hline
      now := fun hline => absurd rfl hline
      apart := fun hnot => absurd ⟨rfl, rfl⟩ hnot }
  slave_ne _ _ _ _ _ _ _ hline h i hi hne :=
    ((isThisNodeOK_iff.mp h).apart (fun heq => hline heq.1) i hi hne).1
  capable b b' h := by
    change caculateCapable b = some b' at h
    unfold caculateCapable at h
    split at h
    · exact absurd h (by simp)
    · rw [← Option.some.inj h]
      exact ⟨rfl, rfl, rfl, rfl, rfl, rfl⟩

-- ---------------------------------------------------------------------------
-- Counting
-- ---------------------------------------------------------------------------

/-- What is known when everything is counted. -/
structure Counted (b c : TableBuilder TableBuilder1) : Prop where
  availableServer : c.availableServer = b.availableServer
  bucketCount : c.bucketCount = b.bucketCount
  copyCount : c.copyCount = b.copyCount
  capable : c.tokens.capable =
    assignCapable (perNode (b.bucketCount * b.copyCount) b.availableServer.length)
      (preNodeCountMin (b.availableServer.map c.tokens.countInNode)) c.tokens.countInNode
      b.availableServer 0 0 fun _ => 0
  mcapable : c.mtokens.capable = assignCapable (perNode b.bucketCount b.availableServer.length)
    (preNodeCountMin (b.availableServer.map c.mtokens.countInNode)) c.mtokens.countInNode
    b.availableServer 0 0 fun _ => 0

theorem exists_counted (hpos : 0 < b.availableServer.length) (source : HashTable) :
    ∃ c, countAll builder b source = some c ∧ Counted b c := by
  unfold countAll
  change ∃ c, (caculateCapable _).bind _ = some c ∧ _
  unfold caculateCapable
  rw [if_neg (by dsimp only; omega)]
  exact ⟨_, rfl, rfl, rfl, rfl, rfl, rfl⟩

/-- The builder has servers enough for the copies, and nothing overflows. -/
structure Configured (b : TableBuilder TableBuilder1) : Prop where
  ready : b.Ready
  copies : 0 < b.copyCount.toNat
  enough : b.copyCount.toNat ≤ b.availableServer.length
  size : b.availableServer.length < 2 ^ 31
  cells : b.bucketCount.toNat * b.copyCount.toNat < 2 ^ 31

theorem Configured.buckets_lt (h : Configured b) : b.bucketCount.toNat < 2 ^ 31 :=
  Nat.lt_of_le_of_lt (Nat.le_mul_of_pos_right _ h.copies) h.cells

theorem Configured.servers_pos (h : Configured b) : 0 < b.availableServer.length :=
  Nat.lt_of_lt_of_le h.copies h.enough

theorem servers_nodup (h : b.Ready) : b.availableServer.Nodup := List.Nodup.of_map _ h.nodup

/-- The servers are capable of all masters, evenly. -/
theorem Counted.mcapable_spec (hc : Counted b c) (h : Configured b) :
    (∀ id ∈ b.availableServer,
      c.mtokens.capable id = (b.bucketCount.toNat / b.availableServer.length : Nat) ∨
      c.mtokens.capable id = (b.bucketCount.toNat / b.availableServer.length : Nat) + 1) ∧
    (b.availableServer.map c.mtokens.capable).sum = b.bucketCount.toNat := by
  have hmod : b.bucketCount.toNat % b.availableServer.length < b.availableServer.length :=
    Nat.mod_lt _ h.servers_pos
  have hdivmod := Nat.div_add_mod b.bucketCount.toNat b.availableServer.length
  have hspec := assignCapable_spec (perNode b.bucketCount b.availableServer.length)
    (preNodeCountMin (b.availableServer.map c.mtokens.countInNode)) c.mtokens.countInNode
    (servers_nodup h.ready) 0 0 fun _ => 0
  rw [perNode_eq h.buckets_lt h.servers_pos h.size] at hspec
  dsimp only at hspec
  obtain ⟨hall, hsum⟩ := hspec (by omega) (by omega) (by omega)
  rw [hc.mcapable, perNode_eq h.buckets_lt h.servers_pos h.size]
  refine ⟨hall, hsum.trans ?_⟩
  rw [← Int.natCast_mul, Int.sub_zero, ← Int.natCast_add, hdivmod]

theorem Counted.quotas (hc : Counted b c) (h : Configured b) : c.Quotas := by
  obtain ⟨hall, hsum⟩ := hc.mcapable_spec h
  have hnonneg : ∀ id ∈ c.availableServer, 0 ≤ c.mtokens.capable id := by
    intro id hid
    rw [hc.availableServer] at hid
    rcases hall id hid with heq | heq
    · rw [heq]
      exact Int.natCast_nonneg _
    · rw [heq]
      exact Int.le_add_one (Int.natCast_nonneg _)
  refine ⟨hnonneg, ?_⟩
  have hcast : ((∑ id ∈ c.holders, c.quota id : Nat) : Int) =
      ∑ id ∈ c.holders, c.mtokens.capable id := by
    rw [Nat.cast_sum]
    refine Finset.sum_congr rfl fun id hid => ?_
    exact Int.toNat_of_nonneg (hnonneg id (mem_holders.mp hid))
  have hlist : ∑ id ∈ c.holders, c.mtokens.capable id = b.bucketCount.toNat := by
    rw [holders, List.sum_toFinset _ (by rw [hc.availableServer]; exact servers_nodup h.ready),
      hc.availableServer, hsum]
  rw [hlist, ← hc.bucketCount] at hcast
  rw [buckets, Finset.card_range]
  exact_mod_cast hcast

/-- With as many servers as copies, some server holds none of the other copies of a bucket. -/
theorem exists_apart (hready : b.Ready) (henough : b.copyCount.toNat ≤ b.availableServer.length)
    (table : HashTable) (idx : Nat) (hline : line < b.copyCount.toNat) :
    ∃ id ∈ b.availableServer, ∀ i < b.copyCount.toNat, i ≠ line →
      (table i idx).first ≠ id.first := by
  have hcard : (((Finset.range b.copyCount.toNat).erase line).image
      fun i => (table i idx).first).card < (b.availableServer.map ServerId.first).toFinset.card := by
    refine Nat.lt_of_le_of_lt Finset.card_image_le ?_
    rw [Finset.card_erase_of_mem (Finset.mem_range.mpr hline), Finset.card_range,
      List.toFinset_card_of_nodup hready.nodup, List.length_map]
    omega
  obtain ⟨first, hmem, hnot⟩ := Finset.exists_mem_notMem_of_card_lt_card hcard
  obtain ⟨id, hid, rfl⟩ := List.mem_map.mp (List.mem_toFinset.mp hmem)
  refine ⟨id, hid, fun i hi hne heq => hnot ?_⟩
  exact Finset.mem_image.mpr ⟨i, Finset.mem_erase.mpr ⟨hne, Finset.mem_range.mpr hi⟩, heq⟩

theorem willing (hready : b.Ready) (henough : b.copyCount.toNat ≤ b.availableServer.length)
    (source : HashTable) : Willing builder b source := by
  intro c table line idx hplan _ hline _
  obtain ⟨hpos, hline⟩ := mem_slaveLines.mp hline
  obtain ⟨id, hid, hapart⟩ := exists_apart hready henough table idx hline
  refine ⟨id, hid, isThisNodeOK_iff.mpr ⟨?_, fun h => ?_, fun _ h => ?_, fun _ _ h => ?_, ?_⟩⟩
  · rw [hplan.isNodeAvailble]
    exact hready.isNodeAvailble_iff.mpr hid
  · omega
  · exact absurd h (by decide)
  · exact absurd rfl h
  · intro _ i hi hne
    rw [hplan.copyCount] at hi
    rw [HashTable.cleared_of_ne fun heq => hne (Prod.mk.inj heq).1]
    exact ⟨hapart i hi hne, fun h => absurd h (by decide)⟩

-- ---------------------------------------------------------------------------
-- Tables
-- ---------------------------------------------------------------------------

/-- No quick table is wanted, or needed. -/
def NoQuickTable (b : TableBuilder TableBuilder1) (source : HashTable) (noQuickTable : Bool) : Prop :=
  noQuickTable = true ∨ ∀ idx < b.bucketCount.toNat, source 0 idx ∈ b.availableServer

/-- The loops, when nothing stands in their way. -/
theorem rebuildTable_eq {noQuickTable : Bool} {b' : TableBuilder TableBuilder1} (h : Configured b)
    (hquick : NoQuickTable b source noQuickTable) (hcount : countAll builder b source = some c)
    (hc : Counted b c) (hrun : (c.masterCells ++ c.slaveCells).foldlM (rebuildCell builder)
      (c, source) = .ok (b', table)) :
    rebuildTable builder b source noQuickTable = some (.buildOk, b', table) := by
  have henough : c.copyCount.toNat ≤ c.availableServer.length := by
    rw [hc.copyCount, hc.availableServer]
    exact h.enough
  have hplain : ¬ (c.needBuildQuickTable source = true ∧ noQuickTable = false) := by
    rintro ⟨hneed, hwanted⟩
    obtain ⟨-, idx, hidx, hnot⟩ := of_decide_eq_true hneed
    rw [hc.bucketCount] at hidx
    rw [hc.availableServer] at hnot
    rcases hquick with htrue | hall
    · rw [htrue] at hwanted
      exact absurd hwanted Bool.true_eq_false_eq_False
    · exact hnot (hall idx hidx)
  unfold rebuildTable
  rw [hcount]
  change (if _ then _ else _) = _
  rw [if_neg hplain, if_neg (Nat.not_lt.mpr henough), hrun]
  rfl

theorem exists_rebuildTable {noQuickTable : Bool} (h : Configured b)
    (hquick : NoQuickTable b source noQuickTable) : ∃ c b' table, Counted b c ∧
      rebuildTable builder b source noQuickTable = some (.buildOk, b', table) ∧
        Rebuilt builder c source b' table := by
  obtain ⟨c, hcount, hc⟩ := exists_counted h.servers_pos source
  have hbooks := countAll_books h.ready h.copies lawful.capable hcount
  rcases foldlM_cells lawful hbooks (by rw [hc.copyCount]; exact h.copies) with
    ⟨b', table, hrun, hrebuilt⟩ | ⟨hnot, -⟩
  · exact ⟨c, b', table, hc, rebuildTable_eq h hquick hcount hc hrun, hrebuilt⟩
  · exact absurd ⟨hc.quotas h, willing hbooks.ready
      (by rw [hc.copyCount, hc.availableServer]; exact h.enough) source⟩ hnot

/-- Three servers, for four buckets with two copies. -/
def threeServers : TableBuilder TableBuilder1 :=
  make 4 2 3 0 [5, 6, 7] .noDataLost (fun _ => 0) ⟨0, 0, 0, 0, 0, 0⟩

theorem configured_threeServers : Configured threeServers where
  ready := ⟨by decide, by decide⟩
  copies := by decide
  enough := by decide
  size := by decide
  cells := by decide

/-- A table in which the first of them has everything. -/
def onFirst : HashTable := fun _ _ => ⟨5, 1⟩

theorem exists_rebuildTable_onFirst : ∃ b' table,
    rebuildTable builder threeServers onFirst true = some (.buildOk, b', table) := by
  have hquick : NoQuickTable threeServers onFirst true := Or.inl rfl
  obtain ⟨-, b', table, -, hrun, -⟩ := exists_rebuildTable configured_threeServers hquick
  exact ⟨b', table, hrun⟩

theorem books_rebuildTable_onFirst : ∃ b' table,
    rebuildTable builder threeServers onFirst true = some (.buildOk, b', table) ∧
      b'.Books table := by
  obtain ⟨b', table, hrun⟩ := exists_rebuildTable_onFirst
  exact ⟨b', table, hrun, books_rebuildTable lawful configured_threeServers.ready (by decide) hrun⟩

/-- With enough servers there always is a table. Every copy is on a server that is available, and
the copies of a bucket are on different servers. -/
theorem rebuildTable_separates {noQuickTable : Bool} (h : Configured b)
    (hquick : NoQuickTable b source noQuickTable) : ∃ b' table,
      rebuildTable builder b source noQuickTable = some (.buildOk, b', table) ∧
        ∀ idx < b.bucketCount.toNat,
          (∀ line < b.copyCount.toNat, table line idx ∈ b.availableServer) ∧
          ∀ line line', line < line' → line' < b.copyCount.toNat →
            (table line idx).first ≠ (table line' idx).first := by
  obtain ⟨c, b', table, hc, hrun, hrebuilt⟩ := exists_rebuildTable h hquick
  refine ⟨b', table, hrun, fun idx hidx => ⟨fun line hline => ?_, fun line line' hlt hline' => ?_⟩⟩
  · rw [← hc.availableServer]
    refine hrebuilt.available lawful (mem_cells.mpr ?_)
    rw [hc.copyCount, hc.bucketCount]
    exact ⟨hline, hidx⟩
  · refine hrebuilt.distinct lawful (mem_cells.mpr ?_) hlt
    rw [hc.copyCount, hc.bucketCount]
    exact ⟨hline', hidx⟩

theorem rebuildTable_separates_onFirst : ∃ b' table,
    rebuildTable builder threeServers onFirst true = some (.buildOk, b', table) ∧
      ∀ idx < 4, (∀ line < 2, table line idx ∈ threeServers.availableServer) ∧
        ∀ line line', line < line' → line' < 2 → (table line idx).first ≠ (table line' idx).first :=
  rebuildTable_separates configured_threeServers (Or.inl rfl)

theorem Counted.buckets (hc : Counted b c) : c.buckets = b.buckets := by
  rw [TableBuilder.buckets, TableBuilder.buckets, hc.bucketCount]

/-- The masters are distributed as evenly as they can be. -/
theorem rebuildTable_balances {noQuickTable : Bool} {result : BuildResult}
    {b' : TableBuilder TableBuilder1} (h : Configured b)
    (hquick : NoQuickTable b source noQuickTable)
    (hrun : rebuildTable builder b source noQuickTable = some (result, b', table))
    (hid : id ∈ b.availableServer) :
    held b.buckets (table 0) id = b.bucketCount.toNat / b.availableServer.length ∨
      held b.buckets (table 0) id = b.bucketCount.toNat / b.availableServer.length + 1 := by
  obtain ⟨c, b₁, table₁, hc, hrun', hrebuilt⟩ := exists_rebuildTable h hquick
  rw [hrun'] at hrun
  cases hrun
  have hheld := hrebuilt.held_masters (hc.quotas h) (hc.availableServer.symm ▸ hid)
  rw [hc.buckets] at hheld
  have hcapable := (hc.mcapable_spec h).1 id hid
  rw [hheld, quota]
  generalize b.bucketCount.toNat / b.availableServer.length = share at hcapable ⊢
  omega

theorem rebuildTable_balances_onFirst : ∃ result b' table,
    rebuildTable builder threeServers onFirst true = some (result, b', table) ∧
      (held threeServers.buckets (table 0) ⟨7, 3⟩ = 1 ∨
        held threeServers.buckets (table 0) ⟨7, 3⟩ = 2) := by
  obtain ⟨b', table, hrun⟩ := exists_rebuildTable_onFirst
  exact ⟨_, b', table, hrun, rebuildTable_balances configured_threeServers (Or.inl rfl) hrun
    (by decide)⟩

/-- No other table with as many masters on every server moves fewer masters. -/
theorem rebuildTable_moves_fewest {noQuickTable : Bool} {result : BuildResult}
    {b' : TableBuilder TableBuilder1} (h : Configured b)
    (hquick : NoQuickTable b source noQuickTable)
    (hrun : rebuildTable builder b source noQuickTable = some (result, b', table))
    {masters : Nat → ServerId}
    (havail : ∀ idx < b.bucketCount.toNat, masters idx ∈ b.availableServer)
    (hheld : ∀ id ∈ b.availableServer, held b.buckets masters id = held b.buckets (table 0) id) :
    moved b.buckets (source 0) (table 0) ≤ moved b.buckets (source 0) masters := by
  obtain ⟨c, b₁, table₁, hc, hrun', hrebuilt⟩ := exists_rebuildTable h hquick
  rw [hrun'] at hrun
  cases hrun
  rw [← hc.buckets] at hheld ⊢
  refine hrebuilt.moved_le (hc.quotas h) (fun idx hidx => ?_) fun id hid => ?_
  · rw [hc.bucketCount] at hidx
    rw [hc.availableServer]
    exact havail idx hidx
  · rw [← hrebuilt.held_masters (hc.quotas h) hid]
    rw [hc.availableServer] at hid
    exact (hheld id hid).le

theorem rebuildTable_moves_fewest_onFirst : ∃ result b' table,
    rebuildTable builder threeServers onFirst true = some (result, b', table) ∧
      moved threeServers.buckets (onFirst 0) (table 0) ≤
        moved threeServers.buckets (onFirst 0) fun idx =>
          if idx = 0 then ⟨5, 1⟩ else if idx = 1 then ⟨6, 2⟩ else ⟨7, 3⟩ := by
  obtain ⟨b', table, hrun⟩ := exists_rebuildTable_onFirst
  have hmasters : (rebuildTable builder threeServers onFirst true).map (fun r =>
      (List.range threeServers.bucketCount.toNat).map (r.2.2 0)) =
        some [⟨7, 3⟩, ⟨7, 3⟩, ⟨6, 2⟩, ⟨5, 1⟩] := by decide +kernel
  rw [hrun] at hmasters
  have hmasters : (List.range threeServers.bucketCount.toNat).map (table 0) =
      [⟨7, 3⟩, ⟨7, 3⟩, ⟨6, 2⟩, ⟨5, 1⟩] := Option.some.inj hmasters
  refine ⟨_, b', table, hrun, rebuildTable_moves_fewest configured_threeServers (Or.inl rfl) hrun
    (by decide) fun id hid => ?_⟩
  have hother := count_buckets threeServers (fun _ idx =>
    if idx = 0 then ⟨5, 1⟩ else if idx = 1 then ⟨6, 2⟩ else ⟨7, 3⟩) id
  rw [← count_buckets threeServers table id, hmasters, ← hother]
  clear hother
  revert id
  decide

end TableBuilder1

end Tair
