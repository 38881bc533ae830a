-- SUMMARY: Which buckets of a table have still to migrate, and that they are the ones that are counted.
import NetworkEtc.Library.Quota
import NetworkEtc.Tair.GroupInfo

/-!
# The buckets that migrate

A bucket is where it should be if `m_hash_table` and `d_hash_table` have the same row for it.
-/

namespace Tair

open Library

namespace ServerTable

variable {t t' : ServerTable} {line i : Nat}

-- ---------------------------------------------------------------------------
-- Cells
-- ---------------------------------------------------------------------------

@[simp] theorem cell_zero (t : ServerTable) (i : Nat) : t.cell 0 i = i := by
  rw [cell, Nat.zero_mul, Nat.zero_add]

theorem cell_div (line : Nat) (hi : i < t.serverBucketCount.toNat) :
    t.cell line i / t.serverBucketCount.toNat = line := by
  rw [cell, Nat.mul_comm, Nat.mul_add_div (Nat.zero_lt_of_lt hi), Nat.div_eq_of_lt hi, Nat.add_zero]

theorem cell_mod (line : Nat) (hi : i < t.serverBucketCount.toNat) :
    t.cell line i % t.serverBucketCount.toNat = i := by
  rw [cell, Nat.mul_comm, Nat.mul_add_mod, Nat.mod_eq_of_lt hi]

theorem cell_inj {line' i' : Nat} (hi : i < t.serverBucketCount.toNat)
    (hi' : i' < t.serverBucketCount.toNat) (h : t.cell line i = t.cell line' i') :
    line = line' ∧ i = i' := by
  constructor
  · rw [← cell_div line hi, h, cell_div line' hi']
  · rw [← cell_mod line hi, h, cell_mod line' hi']

theorem cell_lt (hline : line < t.copyCount.toNat) (hi : i < t.serverBucketCount.toNat) :
    t.cell line i < t.hashTableSize :=
  calc t.cell line i < line * t.serverBucketCount.toNat + t.serverBucketCount.toNat :=
        Nat.add_lt_add_left hi _
    _ = (line + 1) * t.serverBucketCount.toNat := (Nat.succ_mul _ _).symm
    _ ≤ t.hashTableSize := Nat.mul_le_mul_right _ hline

/-- Every place of the arrays is a cell. -/
theorem exists_cell {n : Nat} (hn : n < t.hashTableSize) : ∃ line < t.copyCount.toNat,
    ∃ i < t.serverBucketCount.toNat, n = t.cell line i := by
  have hpos : 0 < t.serverBucketCount.toNat := by
    by_contra hzero
    rw [hashTableSize, Nat.eq_zero_of_not_pos hzero, Nat.mul_zero] at hn
    exact Nat.not_lt_zero _ hn
  refine ⟨n / t.serverBucketCount.toNat, Nat.div_lt_of_lt_mul ?_, n % t.serverBucketCount.toNat,
    Nat.mod_lt _ hpos, ?_⟩
  · rw [Nat.mul_comm]
    exact hn
  · rw [cell, Nat.mul_comm, Nat.div_add_mod]

-- ---------------------------------------------------------------------------
-- Rows
-- ---------------------------------------------------------------------------

/-- A bucket is where it should be. -/
def SameRow (t : ServerTable) (i : Nat) : Prop :=
  ∀ line < t.copyCount.toNat, t.mHashTable (t.cell line i) = t.dHashTable (t.cell line i)

instance (t : ServerTable) : DecidablePred t.SameRow := fun _ =>
  inferInstanceAs (Decidable (∀ line < t.copyCount.toNat, _))

/-- The buckets that are not where they should be. -/
def differing (t : ServerTable) : Finset Nat :=
  (Finset.range t.serverBucketCount.toNat).filter fun i => ¬ t.SameRow i

theorem mem_differing : i ∈ t.differing ↔ i < t.serverBucketCount.toNat ∧ ¬ t.SameRow i := by
  rw [differing, Finset.mem_filter, Finset.mem_range]

theorem sameTables_iff :
    t.sameTables = true ↔ ∀ i < t.serverBucketCount.toNat, t.SameRow i := by
  unfold sameTables
  rw [List.all_eq_true]
  simp only [List.mem_range, decide_eq_true_iff]
  constructor
  · exact fun h i hi line hline => h _ (cell_lt hline hi)
  · intro h n hn
    obtain ⟨line, hline, i, hi, rfl⟩ := exists_cell hn
    exact h i hi line hline

theorem differing_eq_empty_iff : t.differing = ∅ ↔ t.sameTables = true := by
  rw [sameTables_iff, differing, Finset.filter_eq_empty_iff]
  simp only [Finset.mem_range, not_not]

/-- No table has been built. -/
theorem firstRun_iff : t.firstRun = true ↔ ∀ n < t.hashTableSize, t.mHashTable n = 0 := by
  unfold firstRun
  rw [List.all_eq_true]
  simp only [List.mem_range, decide_eq_true_iff]

/-- What is counted is not where it should be. -/
theorem not_sameRow_of_migrate (hcopy : 0 < t.copyCount.toNat)
    (h : t.migrateThisBucket i = true) : ¬ t.SameRow i := by
  intro hsame
  obtain ⟨-, hne | ⟨line, hline, hnone⟩⟩ := of_decide_eq_true h
  · have hzero := hsame 0 hcopy
    rw [cell_zero] at hzero
    exact hne hzero
  · have hlt := List.mem_range'_1.mp hline
    exact hnone line hline (hsame line (by omega)).symm

/-- A row that is not counted: the master is where it should be, and the other copies are on servers
that should have one. -/
theorem migrateThisBucket_eq_false_iff : t.migrateThisBucket i = false ↔ t.mHashTable i = 0 ∨
    t.mHashTable i = t.dHashTable i ∧ ∀ line, 0 < line → line < t.copyCount.toNat →
      ∃ line', 0 < line' ∧ line' < t.copyCount.toNat ∧
        t.dHashTable (t.cell line i) = t.mHashTable (t.cell line' i) := by
  have hmem : ∀ line, line ∈ List.range' 1 (t.copyCount.toNat - 1) ↔
      0 < line ∧ line < t.copyCount.toNat := by
    intro line
    rw [List.mem_range'_1]
    omega
  unfold migrateThisBucket
  rw [decide_eq_false_iff_not]
  simp only [hmem]
  push Not
  constructor
  · intro h
    by_cases hzero : t.mHashTable i = 0
    · exact Or.inl hzero
    · obtain ⟨heq, hall⟩ := h hzero
      refine Or.inr ⟨heq, fun line hpos hlt => ?_⟩
      obtain ⟨line', ⟨hpos', hlt'⟩, hfound⟩ := hall line ⟨hpos, hlt⟩
      exact ⟨line', hpos', hlt', hfound⟩
  · rintro (hzero | ⟨heq, hall⟩) hne
    · exact absurd hzero hne
    · refine ⟨heq, fun line hline => ?_⟩
      obtain ⟨line', hpos', hlt', hfound⟩ := hall line hline.1 hline.2
      exact ⟨line', ⟨hpos', hlt'⟩, hfound⟩

-- ---------------------------------------------------------------------------
-- Counting
-- ---------------------------------------------------------------------------

/-- What is counted of the first buckets. -/
theorem fill_spec (t : ServerTable) (n : Nat) :
    let filled := (List.range n).foldl (fun (filled : CountMap UInt64 × Int) i =>
      if t.migrateThisBucket i then (filled.1.bump (t.mHashTable i), filled.2 + 1) else filled)
      ([], 0)
    let counted := (Finset.range n).filter fun i => t.migrateThisBucket i = true
    filled.1.Counts (held counted t.mHashTable) ∧ filled.2 = counted.card := by
  induction n with
  | zero => exact ⟨CountMap.counts_nil fun _ => rfl, rfl⟩
  | succ n ih =>
    obtain ⟨hcounts, hcard⟩ := ih
    rw [List.range_succ, List.foldl_append, List.foldl_cons, List.foldl_nil]
    dsimp only
    rw [Finset.range_add_one, Finset.filter_insert]
    by_cases hn : t.migrateThisBucket n = true
    · have hnot : n ∉ (Finset.range n).filter fun i => t.migrateThisBucket i = true :=
        fun hmem => Finset.notMem_range_self (Finset.mem_filter.mp hmem).1
      rw [if_pos hn, if_pos hn]
      refine ⟨(hcounts.bump (t.mHashTable n)).congr fun server => ?_, ?_⟩
      · rw [held_eq (p := n) (Finset.mem_insert_self _ _), Finset.erase_insert hnot]
        by_cases hserver : t.mHashTable n = server
        · subst hserver
          rw [Function.update_self, if_pos rfl, Nat.add_comm]
        · rw [Function.update_of_ne (Ne.symm hserver), if_neg hserver, Nat.zero_add]
      · rw [Finset.card_insert_of_notMem hnot, hcard]
        push_cast
        rfl
    · rw [if_neg hn, if_neg hn]
      exact ⟨hcounts, hcard⟩

/-- If every bucket that is not where it should be looks so, they all are counted. -/
theorem fillMigrateMachine_spec (hcopy : 0 < t.copyCount.toNat)
    (h : ∀ i ∈ t.differing, t.migrateThisBucket i = true) :
    t.fillMigrateMachine.1.Counts (held t.differing t.mHashTable) ∧
      t.fillMigrateMachine.2 = t.differing.card := by
  have heq : (Finset.range t.serverBucketCount.toNat).filter
      (fun i => t.migrateThisBucket i = true) = t.differing := by
    ext i
    rw [Finset.mem_filter, Finset.mem_range]
    constructor
    · exact fun hi => mem_differing.mpr ⟨hi.1, not_sameRow_of_migrate hcopy hi.2⟩
    · exact fun hi => ⟨(mem_differing.mp hi).1, h i hi⟩
  have hspec := fill_spec t t.serverBucketCount.toNat
  dsimp only at hspec
  rw [heq] at hspec
  exact hspec

end ServerTable

end Tair
