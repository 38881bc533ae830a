-- SUMMARY: In the tables of the second builder no bucket has all its copies in one rack.
import NetworkEtc.Tair.Rebuilt
import NetworkEtc.Tair.TableBuilder2

/-!
# Racks

A copy that is not the master is only good when some copy of the bucket is at another position. The
copy that the builder comes to last sees all the others at their final places.
-/

namespace Tair

open Library TableBuilder

namespace TableBuilder2

variable {b b' c : TableBuilder TableBuilder2} {table source : HashTable} {id : ServerId}
  {line idx level : Nat} {inUse : Bool}

/-- What is known of a server that is good. -/
structure Good (b : TableBuilder TableBuilder2) (id : ServerId) (line idx : Nat) (table : HashTable)
    (turn : Int) : Prop where
  available : b.isNodeAvailble id = true
  master : line = 0 → b.mtokens.countInNode id < b.mtokens.capable id + turn
  apart : line ≠ 0 → ∀ i < b.copyCount.toNat, i ≠ line → (table i idx).first ≠ id.first
  racks : b.own.buildStatNormal = true → line ≠ 0 →
    ∃ i < b.copyCount.toNat, i ≠ line ∧ (table i idx).second ≠ id.second

theorem good_of_isThisNodeOK (h : isThisNodeOK b id line idx table level inUse = .nodeOk) :
    Good b id line idx table (if inUse then 1 else 0) := by
  have hothers : ∀ i, i ∈ (List.range b.copyCount.toNat).filter (· ≠ line) ↔
      i < b.copyCount.toNat ∧ i ≠ line := by
    intro i
    rw [List.mem_filter, List.mem_range, decide_eq_true_iff]
  unfold isThisNodeOK at h
  dsimp only at h
  generalize (if inUse then (1 : Int) else 0) = turn at h ⊢
  generalize (if id.second = b.own.maxMachineRoomId then b.own.mtokensPerNodeMin
    else b.own.otokensPerNodeMin) = tokenPerNodeMin at h
  generalize (if id.second = b.own.maxMachineRoomId then b.own.mtokensPerNodeMaxCount
    else b.own.otokensPerNodeMaxCount) = tokenPerNodeMaxCount at h
  split at h
  · exact absurd h (by simp)
  next havail =>
  split at h
  · exact absurd h (by simp)
  next hmaster =>
  split at h
  · exact absurd h (by simp)
  split at h
  · exact absurd h (by simp)
  have hlt : line = 0 → b.mtokens.countInNode id < b.mtokens.capable id + turn :=
    fun hline => Int.not_le.mp fun hle => hmaster ⟨hline, hle⟩
  have havail : b.isNodeAvailble id = true := by simpa using havail
  split at h
  · next hbase =>
    exact ⟨havail, hlt, fun hline => absurd hbase.1 hline, fun _ hline => absurd hbase.1 hline⟩
  split at h
  · exact absurd h (by simp)
  next hsame =>
  split at h
  · exact absurd h (by simp)
  next hrack =>
  refine ⟨havail, hlt, fun _ i hi hne heq => hsame ⟨i, (hothers i).mpr ⟨hi, hne⟩, heq⟩,
    fun hnormal hline => ?_⟩
  by_contra hnone
  refine hrack ⟨hnormal, hline, fun i hi => ?_⟩
  obtain ⟨hi, hne⟩ := (hothers i).mp hi
  by_contra heq
  exact hnone ⟨i, hi, hne, heq⟩

theorem caculateCapable_sets (h : caculateCapable b = some c) :
    SetsCapable b c ∧ c.own = b.own ∧ b.own.buildStatNormal = true ∧ 1 < b.copyCount.toNat := by
  unfold caculateCapable at h
  dsimp only at h
  split at h
  · exact absurd h (by simp)
  next hnormal =>
  split at h
  · exact absurd h (by simp)
  rw [← Option.some.inj h]
  exact ⟨⟨rfl, rfl, rfl, rfl, rfl, rfl⟩, rfl, not_not.mp hnormal⟩

theorem lawful : builder.Lawful where
  available _ _ _ _ _ _ _ h := (good_of_isThisNodeOK h).available
  master_lt _ _ _ _ _ _ h := (good_of_isThisNodeOK h).master rfl
  master_ok b id idx table inUse havail hlt := by
    change isThisNodeOK b id 0 idx table CONSIDER_BASE inUse = .nodeOk
    unfold isThisNodeOK
    dsimp only
    rw [if_neg (by rw [havail]; exact Bool.true_eq_false_eq_False),
      if_neg fun h => absurd hlt (Int.not_lt.mpr h.2), if_neg fun h => absurd rfl h.1,
      if_neg fun h => absurd rfl h.1, if_pos ⟨rfl, rfl⟩]
  slave_ne _ _ _ _ _ _ _ hline h := (good_of_isThisNodeOK h).apart hline
  capable _ _ h := (caculateCapable_sets h).1

/-- No bucket has all its copies in one rack. -/
theorem rebuildTable_spans_racks {noQuickTable : Bool} (hready : b.Ready)
    (hrun : rebuildTable b source noQuickTable = some (.buildOk, b', table))
    (hidx : idx < b.bucketCount.toNat) : ∃ line < b.copyCount.toNat, ∃ line' < b.copyCount.toNat,
      (table line idx).second ≠ (table line' idx).second := by
  unfold rebuildTable at hrun
  split at hrun
  · cases hrun
  have hcounted := Option.bind_eq_some_iff.mp hrun
  obtain ⟨c₀, hc₀, -⟩ := hcounted
  obtain ⟨c₁, hcapable, heq⟩ := Option.bind_eq_some_iff.mp hc₀
  obtain ⟨-, hown, hnormal, hcopies⟩ := caculateCapable_sets hcapable
  dsimp only at hown hnormal hcopies
  obtain ⟨c, hc, hrebuilt⟩ := rebuilt_of_buildOk lawful hready (by omega) hrun
  rw [hc₀] at hc
  cases hc
  have htask := countAll_sets lawful.capable hc₀
  have hnormal' : c₀.own.buildStatNormal = true := by
    rw [← Option.some.inj heq]
    dsimp only
    rw [hown]
    exact hnormal
  -- the last copy of the bucket
  obtain ⟨d, start, hmasters, hslaves⟩ := hrebuilt.masters
  have hlast : (b.copyCount.toNat - 1, idx) ∈ c₀.slaveCells := by
    rw [mem_slaveCells, mem_slaveLines, htask.copyCount, htask.bucketCount]
    dsimp only
    omega
  obtain ⟨e, before, level, inUse, hplan, hok, hbefore, -⟩ := hslaves.passed _ hlast
  have hplan := hmasters.plan.trans hplan
  have hgood := good_of_isThisNodeOK hok
  obtain ⟨i, hi, hne, hsecond⟩ := hgood.racks (by rw [hplan.own]; exact hnormal')
    (by dsimp only; omega)
  rw [hplan.copyCount, htask.copyCount] at hi
  dsimp only at hne hsecond hbefore
  rw [hbefore i (by omega)] at hsecond
  exact ⟨i, hi, b.copyCount.toNat - 1, by omega, hsecond⟩

/-- Two racks with two servers each, for four buckets with two copies. -/
def twoRacks : TableBuilder TableBuilder2 :=
  setAvailableServer (make 4 2 3 0 [] .noDataLost (fun _ => 0)
    { floats :=
        { uneven := fun diffServer posMax => 3 * posMax < 5 * diffServer
          share := fun total posMax servers => total.toNat * posMax / servers }
      buildStatNormal := false, posMax := 0, maxMachineRoomId := 0, mtokensPerNodeMin := 0
      mtokensPerNodeMaxCount := 0, otokensPerNodeMin := 0, otokensPerNodeMaxCount := 0 })
    [5, 6, 9, 10]

theorem rebuildTable_spans_racks_twoRacks : ∃ b' table,
    rebuildTable twoRacks (fun _ _ => ⟨5, 1⟩) true = some (.buildOk, b', table) ∧
      ∃ line < 2, ∃ line' < 2, (table line 3).second ≠ (table line' 3).second := by
  have hok : (rebuildTable twoRacks (fun _ _ => ⟨5, 1⟩) true).map Prod.fst = some .buildOk := by
    decide +kernel
  obtain ⟨⟨result, b', table⟩, hrun, hresult⟩ := Option.map_eq_some_iff.mp hok
  cases hresult
  have hservers : twoRacks.availableServer = availableServers 3 [5, 6, 9, 10] := rfl
  have hready := ready_of_availableServers hservers (by decide)
  exact ⟨b', table, hrun, rebuildTable_spans_racks
    hready hrun (by decide)⟩

end TableBuilder2

end Tair
