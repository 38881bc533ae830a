-- SUMMARY: A table that is as it should be stays as it is when it is rebuilt.
import NetworkEtc.Tair.Balance

/-!
# Settled tables

When the buckets are distributed evenly and the copies of every bucket are apart, what a server is
capable of turns out to be what it has. So no cell changes.
-/

namespace Tair

open Library TableBuilder

-- ---------------------------------------------------------------------------
-- Capacities
-- ---------------------------------------------------------------------------

variable {per : PerNode} {pre : Int} {count : ServerId → Int}

theorem sum_eq_of_two_values {ids : List ServerId} {low : Int}
    (hvalue : ∀ id ∈ ids, count id = low ∨ count id = low + 1) :
    (ids.map count).sum = ids.length * low + ids.countP (fun id => count id = low + 1) := by
  induction ids with
  | nil => simp
  | cons id ids ih =>
    have hrest := ih fun id hid => hvalue id (List.mem_cons_of_mem _ hid)
    rw [List.map_cons, List.sum_cons, hrest, List.length_cons, List.countP_cons]
    push_cast
    rw [Int.add_mul]
    rcases hvalue id List.mem_cons_self with heq | heq
    · rw [heq]
      simp
      omega
    · rw [heq]
      simp
      omega

/-- When the counts are already even, the loop gives every server what it has. -/
theorem assignCapable_eq_count {ids : List ServerId} (hnodup : ids.Nodup) {i maxS : Int}
    (capable : ServerId → Int) (hpre : pre = per.min)
    (hvalue : ∀ id ∈ ids, count id = per.min ∨ count id = per.min + 1)
    (hmax : (ids.countP fun id => count id = per.min + 1 : Nat) = per.maxCount - maxS)
    (hmin : ids.length - (ids.countP fun id => count id = per.min + 1 : Nat) =
      per.minCount - (i - maxS)) :
    ∀ id ∈ ids, assignCapable per pre count ids i maxS capable id = count id := by
  induction ids generalizing i maxS capable with
  | nil => exact fun id hid => absurd hid List.not_mem_nil
  | cons id ids ih =>
    obtain ⟨hnot, hnodup⟩ := List.nodup_cons.mp hnodup
    have hvalue' : ∀ id ∈ ids, count id = per.min ∨ count id = per.min + 1 :=
      fun id hid => hvalue id (List.mem_cons_of_mem _ hid)
    rw [List.countP_cons] at hmax hmin
    rw [List.length_cons] at hmin
    have hle : ids.countP (fun id => count id = per.min + 1) ≤ ids.length := List.countP_le_length
    rcases hvalue id List.mem_cons_self with heq | heq
    · have hno : decide (count id = per.min + 1) = false := decide_eq_false (by omega)
      rw [hno, if_neg Bool.false_ne_true] at hmax hmin
      unfold assignCapable
      rw [if_pos (by omega), if_pos (by omega)]
      intro id' hid'
      rcases List.mem_cons.mp hid' with rfl | hid'
      · rw [assignCapable_of_notMem hnot, Function.update_self, heq]
      · exact ih hnodup _ hvalue' (by omega) (by omega) id' hid'
    · have hyes : decide (count id = per.min + 1) = true := decide_eq_true heq
      rw [hyes, if_pos rfl] at hmax hmin
      unfold assignCapable
      rw [if_neg (by omega), if_pos (by omega)]
      intro id' hid'
      rcases List.mem_cons.mp hid' with rfl | hid'
      · rw [assignCapable_of_notMem hnot, Function.update_self, heq]
      · exact ih hnodup _ hvalue' (by omega) (by omega) id' hid'

theorem preNodeCountMin_eq {counts : List Int} (hpos : ∀ n ∈ counts, n ≠ 0)
    (hlen : 0 < counts.length) : preNodeCountMin counts = Int.tdiv counts.sum counts.length := by
  unfold preNodeCountMin
  rw [List.filter_eq_self.mpr fun n hn => decide_eq_true (hpos n hn)]
  dsimp only
  rw [if_pos (by omega)]

/-- A total that is distributed evenly is what the servers are capable of. -/
theorem assignCapable_of_even {total : UInt32} {ids : List ServerId} (hnodup : ids.Nodup)
    (hlen : 0 < ids.length) (hsize : ids.length < 2 ^ 31) (htotal : total.toNat < 2 ^ 31)
    (hle : ids.length ≤ total.toNat) (hsum : (ids.map count).sum = total.toNat)
    (hvalue : ∀ id ∈ ids, count id = (total.toNat / ids.length : Nat) ∨
      count id = (total.toNat / ids.length : Nat) + 1) :
    ∀ id ∈ ids, assignCapable (perNode total ids.length) (preNodeCountMin (ids.map count)) count
      ids 0 0 (fun _ => 0) id = count id := by
  have hshare : 0 < total.toNat / ids.length := Nat.div_pos hle hlen
  have hdivmod : ids.length * (total.toNat / ids.length) + total.toNat % ids.length =
    total.toNat := Nat.div_add_mod ..
  have hcount := sum_eq_of_two_values hvalue
  rw [hsum] at hcount
  have hcountP : (ids.countP fun id =>
      count id = ((total.toNat / ids.length : Nat) : Int) + 1 : Nat) =
        total.toNat % ids.length := by
    have : ids.length * (total.toNat / ids.length) + (ids.countP fun id =>
        count id = ((total.toNat / ids.length : Nat) : Int) + 1 : Nat) = total.toNat := by
      exact_mod_cast hcount.symm
    omega
  have hpre : preNodeCountMin (ids.map count) = (total.toNat / ids.length : Nat) := by
    rw [preNodeCountMin_eq, hsum, List.length_map]
    · rfl
    · intro n hn
      obtain ⟨id, hid, rfl⟩ := List.mem_map.mp hn
      rcases hvalue id hid with heq | heq
      · omega
      · omega
    · rw [List.length_map]
      exact hlen
  rw [perNode_eq htotal hlen hsize]
  apply assignCapable_eq_count hnodup (fun _ => 0)
  · exact hpre
  · exact hvalue
  · dsimp only
    rw [hcountP]
    omega
  · dsimp only
    rw [hcountP]
    omega

-- ---------------------------------------------------------------------------
-- Tables
-- ---------------------------------------------------------------------------

namespace TableBuilder1

variable {b b' c : TableBuilder TableBuilder1} {source : HashTable} {line idx : Nat}

/-- Copies and masters are distributed evenly, and the copies of a bucket are on different servers
at different positions. -/
structure Settled (b : TableBuilder TableBuilder1) (table : HashTable) : Prop where
  servers : b.availableServer.length ≤ b.bucketCount.toNat
  available : ∀ line < b.copyCount.toNat, ∀ idx < b.bucketCount.toNat,
    table line idx ∈ b.availableServer
  apart : ∀ line < b.copyCount.toNat, ∀ line' < b.copyCount.toNat, line' ≠ line →
    ∀ idx < b.bucketCount.toNat, (table line' idx).first ≠ (table line idx).first ∧
      (table line' idx).second ≠ (table line idx).second
  copies : ∀ id ∈ b.availableServer,
    held b.cells (Function.uncurry table) id = b.cells.card / b.availableServer.length ∨
      held b.cells (Function.uncurry table) id = b.cells.card / b.availableServer.length + 1
  masters : ∀ id ∈ b.availableServer,
    held b.buckets (table 0) id = b.buckets.card / b.availableServer.length ∨
      held b.buckets (table 0) id = b.buckets.card / b.availableServer.length + 1

theorem sum_held_servers {ι : Type} {places : Finset ι} {f : ι → ServerId} (h : b.Ready)
    (hin : ∀ p ∈ places, f p ∈ b.availableServer) :
    (b.availableServer.map fun id => (held places f id : Int)).sum = places.card := by
  rw [← List.sum_toFinset _ (servers_nodup h), ← Nat.cast_sum, sum_held,
    Finset.filter_true_of_mem fun p hp => List.mem_toFinset.mpr (hin p hp)]

/-- Of a settled table every server has what it is capable of. -/
theorem Counted.capable_eq (hc : Counted b c) (h : Configured b) (hsettled : Settled b source)
    (hbooks : c.Books source) : ∀ id ∈ b.availableServer,
      c.tokens.capable id = c.tokens.countInNode id ∧
        c.mtokens.capable id = c.mtokens.countInNode id := by
  have hcells : c.cells = b.cells := by
    rw [cells, cells, hc.copyCount, hc.bucketCount]
  have htotal : (b.bucketCount * b.copyCount).toNat = b.cells.card := by
    rw [UInt32.toNat_mul, Nat.mod_eq_of_lt (Nat.lt_trans h.cells (by decide)), cells,
      Finset.card_product, Finset.card_range, Finset.card_range, Nat.mul_comm]
  have hmasters : b.bucketCount.toNat = b.buckets.card := by
    rw [TableBuilder.buckets, Finset.card_range]
  have hle : b.bucketCount.toNat ≤ (b.bucketCount * b.copyCount).toNat := by
    rw [UInt32.toNat_mul, Nat.mod_eq_of_lt (Nat.lt_trans h.cells (by decide))]
    exact Nat.le_mul_of_pos_right _ h.copies
  have hcount : ∀ id ∈ b.availableServer,
      c.tokens.countInNode id = held b.cells (Function.uncurry source) id := by
    intro id hid
    rw [hbooks.tokens id (by rwa [hc.availableServer]), hcells]
  have hmcount : ∀ id ∈ b.availableServer,
      c.mtokens.countInNode id = held b.buckets (source 0) id := by
    intro id hid
    rw [hbooks.mtokens id (by rwa [hc.availableServer]), hc.buckets]
  intro id hid
  constructor
  · rw [hc.capable]
    refine assignCapable_of_even (servers_nodup h.ready) h.servers_pos h.size ?_ ?_ ?_ ?_ id hid
    · rw [UInt32.toNat_mul, Nat.mod_eq_of_lt (Nat.lt_trans h.cells (by decide))]
      exact h.cells
    · exact hsettled.servers.trans hle
    · rw [List.map_congr_left hcount, htotal]
      refine sum_held_servers h.ready ?_
      rintro ⟨line, idx⟩ hcell
      obtain ⟨hline, hidx⟩ := mem_cells.mp hcell
      exact hsettled.available line hline idx hidx
    · intro id hid
      rw [hcount id hid, htotal]
      exact_mod_cast hsettled.copies id hid
  · rw [hc.mcapable]
    refine assignCapable_of_even (servers_nodup h.ready) h.servers_pos h.size h.buckets_lt
      hsettled.servers ?_ ?_ id hid
    · rw [List.map_congr_left hmcount, hmasters]
      exact sum_held_servers h.ready fun idx hidx =>
        hsettled.available 0 h.copies idx (mem_buckets.mp hidx)
    · intro id hid
      rw [hmcount id hid, hmasters]
      exact_mod_cast hsettled.masters id hid

/-- Every cell of a settled table stays. -/
theorem rebuildCell_settled (hc : Counted b c) (h : Configured b) (hsettled : Settled b source)
    (hbooks : c.Books source) {c' : TableBuilder TableBuilder1} (hplan : SamePlan c c')
    (hbooks' : c'.Books source) (hline : line < b.copyCount.toNat)
    (hidx : idx < b.bucketCount.toNat) :
    rebuildCell builder (c', source) (line, idx) =
      .ok (countNow builder c' (source line idx), source) := by
  have hid := hsettled.available line hline idx hidx
  obtain ⟨hcapable, hmcapable⟩ := hc.capable_eq h hsettled hbooks _ hid
  have hid' : source line idx ∈ c'.availableServer := by
    rw [hplan.availableServer, hc.availableServer]
    exact hid
  have hcount : c'.tokens.countInNode (source line idx) = c'.tokens.capable (source line idx) := by
    rw [hplan.capable, hcapable, hbooks'.tokens _ hid', hplan.cells, hbooks.tokens]
    rwa [hplan.availableServer] at hid'
  have hmcount :
      c'.mtokens.countInNode (source line idx) = c'.mtokens.capable (source line idx) := by
    rw [hplan.mcapable, hmcapable, hbooks'.mtokens _ hid', hplan.buckets, hbooks.mtokens]
    rwa [hplan.availableServer] at hid'
  have hok : isThisNodeOK c' (source line idx) line idx source
      (if line = 0 then CONSIDER_BASE else CONSIDER_ALL) true = .nodeOk := by
    rw [isThisNodeOK_iff]
    refine ⟨hbooks'.ready.isNodeAvailble_iff.mpr hid', fun _ => ?_, fun _ _ => ?_,
      fun hne hall => ?_, fun hnot i hi hne => ?_⟩
    · rw [hmcount]
      exact Int.lt_add_one_of_le (Int.le_refl _)
    · rw [hcount]
      exact Int.lt_add_one_of_le (Int.le_refl _)
    · rw [if_neg hne] at hall
      exact absurd rfl hall
    · rw [hplan.copyCount, hc.copyCount] at hi
      obtain ⟨hfirst, hsecond⟩ := hsettled.apart line hline i hi hne idx hidx
      exact ⟨hfirst, fun _ => hsecond⟩
  unfold rebuildCell
  dsimp only
  exact if_pos hok

theorem foldlM_settled (hc : Counted b c) (h : Configured b) (hsettled : Settled b source)
    (hbooks : c.Books source) (cells : List (Nat × Nat)) (hcells : ∀ cell ∈ cells, cell ∈ b.cells)
    {c' : TableBuilder TableBuilder1} (hplan : SamePlan c c') (hbooks' : c'.Books source) :
    ∃ b', cells.foldlM (rebuildCell builder) (c', source) = .ok (b', source) := by
  induction cells generalizing c' with
  | nil => exact ⟨c', rfl⟩
  | cons cell cells ih =>
    obtain ⟨line, idx⟩ := cell
    obtain ⟨hline, hidx⟩ := mem_cells.mp (hcells _ List.mem_cons_self)
    rw [List.foldlM_cons, rebuildCell_settled hc h hsettled hbooks hplan hbooks' hline hidx]
    exact ih (fun cell hcell => hcells cell (List.mem_cons_of_mem _ hcell))
      (hplan.trans (countNow_samePlan builder c' _)) (hbooks'.countNow _)

/-- A settled table is left as it is. -/
theorem rebuildTable_settled {noQuickTable : Bool} (h : Configured b)
    (hsettled : Settled b source) :
    ∃ b', rebuildTable builder b source noQuickTable = some (.buildOk, b', source) := by
  obtain ⟨c, hcount, hc⟩ := exists_counted h.servers_pos source
  have hbooks := countAll_books h.ready h.copies lawful.capable hcount
  have hcells : c.cells = b.cells := by
    rw [TableBuilder.cells, TableBuilder.cells, hc.copyCount, hc.bucketCount]
  obtain ⟨b', hrun⟩ := foldlM_settled hc h hsettled hbooks (c.masterCells ++ c.slaveCells)
    (fun cell hcell => by
      rw [← hcells]
      exact (List.mem_append.mp hcell).elim mem_masterCells slaveCell_mem_cells)
    (SamePlan.refl c) hbooks
  have hquick : NoQuickTable b source noQuickTable :=
    Or.inr fun idx hidx => hsettled.available 0 h.copies idx hidx
  exact ⟨b', rebuildTable_eq h hquick hcount hc hrun⟩

/-- A table in which the buckets go round. -/
def goingRound : HashTable := fun line idx =>
  [[⟨5, 1⟩, ⟨6, 2⟩, ⟨7, 3⟩, ⟨5, 1⟩], [⟨6, 2⟩, ⟨7, 3⟩, ⟨5, 1⟩, ⟨7, 3⟩]].getD line [] |>.getD idx .invalid

theorem rebuildTable_settled_goingRound :
    ∃ b', rebuildTable builder threeServers goingRound false = some (.buildOk, b', goingRound) :=
  rebuildTable_settled configured_threeServers
    { servers := by decide
      available := by decide
      apart := by decide
      copies := by decide
      masters := by decide }

end TableBuilder1

end Tair
