-- SUMMARY: What a rebuild has computed when it takes the lock again: buckets that seem to be where they should be are.
import NetworkEtc.Tair.Balance
import NetworkEtc.Tair.GroupInfo
import NetworkEtc.Tair.Migration
import NetworkEtc.Tair.Racks

/-!
# What a rebuild computes

A rebuild starts from `m_hash_table`. Whichever builder it takes, it ends with tables that
`fill_migrate_machine` can compare.
-/

namespace Tair

open Library

/-- Every copy of a bucket has a server of its own. -/
def HashTable.Separate (table : HashTable) (copies idx : Nat) : Prop :=
  ∀ line < copies, (table line idx).first ≠ 0 ∧
    ∀ line' < line, (table line' idx).first ≠ (table line idx).first

/-- There is a master, and if the row seems to be that of the other table, it is. -/
structure HashTable.Agree (quick dest : HashTable) (copies idx : Nat) : Prop where
  master : (quick 0 idx).first ≠ 0
  same : (quick 0 idx).first = (dest 0 idx).first →
    (∀ line, 0 < line → line < copies → ∃ line', 0 < line' ∧ line' < copies ∧
      (dest line idx).first = (quick line' idx).first) →
    ∀ line < copies, (quick line idx).first = (dest line idx).first

namespace TableBuilder

variable {σ : Type} {b b' c : TableBuilder σ} {V : Virtual σ} {source quick dest : HashTable}
  {servers : List UInt64} {arrays : Nat → UInt64} {line idx : Nat}

/-- In what is loaded, servers are in their positions. -/
theorem known_loadHashTable (h : b.availableServer = availableServers b.posMask servers)
    (hzero : 0 ∉ servers) : b.Known (b.loadHashTable arrays) := by
  have hready := ready_of_availableServers h hzero
  intro line idx id hid heq
  have hsecond := ((availableServers_spec b.posMask servers).2 id (h ▸ hid)).2
  unfold loadHashTable at heq ⊢
  split
  · next hcell =>
    rw [if_pos hcell] at heq
    dsimp only at heq ⊢
    rw [heq, ← hsecond]
  · next hcell =>
    rw [if_neg hcell] at heq
    exact absurd heq.symm (hready.nonzero id hid)

/-- It builds a table, or it fails. -/
theorem buildOk_of_noQuickTable {result : BuildResult}
    (h : rebuildTable V b source true = some (result, b', dest)) (hok : result ≠ .buildError) :
    rebuildTable V b source true = some (.buildOk, b', dest) := by
  rw [h]
  obtain ⟨c, -, heq⟩ := Option.bind_eq_some_iff.mp h
  rw [if_neg fun hboth => Bool.noConfusion hboth.2] at heq
  split at heq
  · exact absurd (congrArg Prod.fst (Option.some.inj heq)).symm hok
  · split at heq
    · cases heq
      rfl
    · exact absurd (congrArg Prod.fst (Option.some.inj heq)).symm hok

variable (hV : V.Lawful) (htask : SameTask b c) (hready : b.Ready) (hdest : Rebuilt V c source b' dest)
  (hidx : idx < b.bucketCount.toNat)

include hV htask hready hdest hidx

theorem Rebuilt.separate : dest.Separate b.copyCount.toNat idx := by
  intro line hline
  have hcell : (line, idx) ∈ c.cells := by
    rw [htask.cells]
    exact mem_cells.mpr ⟨hline, hidx⟩
  have havail := hdest.available hV hcell
  rw [htask.availableServer] at havail
  exact ⟨hready.nonzero _ havail, fun line' hlt => hdest.distinct hV hcell hlt⟩

/-- With a quick table. -/
theorem QuickRow.agree (hknown : b.Known source) (hcopy : 0 < b.copyCount.toNat)
    (hquick : QuickRow b source quick idx) (hmaster : (source 0 idx).first ≠ 0) :
    quick.Agree dest b.copyCount.toNat idx where
  master := by
    by_cases havail : b.isNodeAvailble (quick 0 idx) = true
    · exact hready.nonzero _ (hready.isNodeAvailble_iff.mp havail)
    · rw [hquick.stays (Bool.eq_false_iff.mpr havail)]
      exact hmaster
  same hfirst hfound line hline := by
    have hfound' : ∀ line ∈ b.slaveLines, ∃ line' ∈ b.slaveLines,
        (dest line idx).first = (quick line' idx).first := by
      intro line hline
      obtain ⟨hpos, hlt⟩ := mem_slaveLines.mp hline
      obtain ⟨line', hpos', hlt', heq⟩ := hfound line hpos hlt
      exact ⟨line', mem_slaveLines.mpr ⟨hpos', hlt'⟩, heq⟩
    rw [quick_eq_dest hV htask hready hknown hcopy hdest hidx hquick hfirst hfound' line hline]

omit hV htask hready hdest hidx

/-- Without other copies. -/
theorem agree_of_single {copies : Nat} (hsingle : copies ≤ 1) (hmaster : (source 0 idx).first ≠ 0) :
    source.Agree dest copies idx where
  master := hmaster
  same hfirst _ line hline := by
    obtain rfl : line = 0 := by omega
    exact hfirst

end TableBuilder

-- ---------------------------------------------------------------------------
-- Rebuilding
-- ---------------------------------------------------------------------------

/-- What holds of what a rebuild has computed from a table. -/
structure Pending.Sound (p : Pending) (t : ServerTable) : Prop where
  firstRun : p.firstRun = t.firstRun
  dest : p.result ≠ .buildError → ∀ idx < t.serverBucketCount.toNat,
    p.dest.Separate t.copyCount.toNat idx
  quick : p.result ≠ .buildError → p.firstRun = false → ∀ idx < t.serverBucketCount.toNat,
    p.quickTable.Agree p.dest t.copyCount.toNat idx

namespace GroupInfo

open TableBuilder

variable {σ : Type} {g g' : GroupInfo} {b b' : TableBuilder σ} {V : Virtual σ} {p : Pending}
  {servers : List UInt64}

section

variable (hservers : b.availableServer = availableServers b.posMask servers) (hzero : 0 ∉ servers)
  (hbuckets : b.bucketCount = g.serverTable.serverBucketCount)
  (hcopies : b.copyCount = g.serverTable.copyCount) (hcopy : 0 < g.serverTable.copyCount.toNat)

include hservers hzero hbuckets hcopies hcopy

/-- The table that is used meanwhile, if there is one. -/
theorem quickTable_spec (hV : V.Lawful) {quick : Bool × TableBuilder σ × HashTable}
    (hmigrates : 1 < g.serverTable.copyCount → g.config.needMigrate = true)
    (hmasters : g.serverTable.firstRun = false →
      ∀ i < g.serverTable.serverBucketCount.toNat, g.serverTable.mHashTable i ≠ 0)
    (hquick : (if g.config.needMigrate = true ∧ 1 < g.serverTable.copyCount ∧
        g.serverTable.firstRun = false then
      b.buildQuickTable (b.loadHashTable g.serverTable.mHashTable)
      else (true, b, b.loadHashTable g.serverTable.mHashTable)) = quick)
    (hok : quick.1 = true) :
    SameTask b quick.2.1 ∧ (g.serverTable.firstRun = false → ∀ c b' dest, SameTask b c →
      Rebuilt V c (b.loadHashTable g.serverTable.mHashTable) b' dest →
      ∀ idx < g.serverTable.serverBucketCount.toNat,
        quick.2.2.Agree dest g.serverTable.copyCount.toNat idx) := by
  have hmaster : g.serverTable.firstRun = false → ∀ idx < b.bucketCount.toNat,
      (b.loadHashTable g.serverTable.mHashTable 0 idx).first ≠ 0 := by
    intro hfirst idx hidx
    rw [loadHashTable, if_pos ⟨by rw [hcopies]; exact hcopy, hidx⟩]
    dsimp only
    rw [Nat.zero_mul, Nat.zero_add]
    exact hmasters hfirst idx (hbuckets ▸ hidx)
  split at hquick
  · subst hquick
    obtain ⟨hplan, hrows⟩ := buildQuickTable_rows hok
    refine ⟨hplan.sameTask, ?_⟩
    intro hfirst c b' dest htask hdest idx hidx
    rw [← hbuckets] at hidx
    rw [← hcopies]
    exact (hrows idx hidx).agree hV htask (ready_of_availableServers hservers hzero) hdest hidx
      (known_loadHashTable hservers hzero) (by rw [hcopies]; exact hcopy) (hmaster hfirst idx hidx)
  · next hnot =>
    subst hquick
    refine ⟨SameTask.refl b, fun hfirst c b' dest _ _ idx hidx => ?_⟩
    refine agree_of_single (Nat.le_of_not_lt fun hlt => ?_) (hmaster hfirst idx (hbuckets ▸ hidx))
    exact hnot ⟨hmigrates hlt, hlt, hfirst⟩

/-- What a rebuild computes with a builder. -/
theorem buildTables_sound {rebuildTable : TableBuilder σ → HashTable → Bool →
      Option (BuildResult × TableBuilder σ × HashTable)} (hV : V.Lawful)
    (hrebuild : ∀ c source result c' dest,
      rebuildTable c source true = some (result, c', dest) → result ≠ .buildError →
      TableBuilder.rebuildTable V c source true = some (.buildOk, c', dest))
    (hmigrates : 1 < g.serverTable.copyCount → g.config.needMigrate = true)
    (hmasters : g.serverTable.firstRun = false →
      ∀ i < g.serverTable.serverBucketCount.toNat, g.serverTable.mHashTable i ≠ 0)
    (h : g.buildTables g.serverTable.firstRun b rebuildTable = .ok (g', some p)) :
    g' = g ∧ p.Sound g.serverTable := by
  unfold buildTables at h
  dsimp only at h
  generalize hquick : (if g.config.needMigrate = true ∧ 1 < g.serverTable.copyCount ∧
    g.serverTable.firstRun = false then
      b.buildQuickTable (b.loadHashTable g.serverTable.mHashTable)
    else (true, b, b.loadHashTable g.serverTable.mHashTable)) = quick at h
  split at h
  · cases h
  next hnot =>
  obtain ⟨htask, hagree⟩ := quickTable_spec hservers hzero hbuckets hcopies hcopy hV hmigrates
    hmasters hquick (Bool.not_eq_false _ ▸ hnot)
  split at h
  · cases h
  next result c' dest hresult =>
  cases h
  have hready := ready_of_availableServers hservers hzero
  have hrebuilt : result ≠ .buildError → ∃ c, SameTask b c ∧
      Rebuilt V c (b.loadHashTable g.serverTable.mHashTable) c' dest := by
    intro hok
    obtain ⟨c, hc, hdest⟩ := rebuilt_of_buildOk hV
      (htask.ready hready) (by rw [htask.copyCount, hcopies]; exact hcopy)
      (hrebuild _ _ _ _ _ hresult hok)
    exact ⟨c, htask.trans (countAll_sets hV.capable hc), hdest⟩
  refine ⟨rfl, rfl, fun hok idx hidx => ?_, fun hok hfirst idx hidx => ?_⟩
  · obtain ⟨c, htask, hdest⟩ := hrebuilt hok
    dsimp only
    rw [← hcopies]
    exact hdest.separate hV htask hready (hbuckets ▸ hidx)
  · obtain ⟨c, htask, hdest⟩ := hrebuilt hok
    exact hagree hfirst c c' dest htask hdest idx hidx

end

end GroupInfo

end Tair
