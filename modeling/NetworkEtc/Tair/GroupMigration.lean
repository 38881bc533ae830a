-- SUMMARY: Every run of a configuration server: no assertion fails, what is counted is right, clients find their buckets, and migrations end.
import NetworkEtc.Tair.GroupRuns

/-!
# Migrations

What a maintainer relies on, in every state that a run reaches from empty tables.
-/

namespace Tair

open Library ServerTable

namespace GroupState

open GroupInfo

variable {s s' : GroupState} {t : ServerTable} {events : List Event} {config : GroupConfig}
  {changed : Bool}

-- ---------------------------------------------------------------------------
-- Every run
-- ---------------------------------------------------------------------------

/-- No table for three buckets with two copies. -/
def noTable : ServerTable where
  hashTable := fun _ => 0
  mHashTable := fun _ => 0
  dHashTable := fun _ => 0
  migrateBlockCount := -1
  clientVersion := 0
  serverVersion := 0
  areaCapacityVersion := 0
  serverBucketCount := 3
  copyCount := 2

def evenly : GroupConfig where
  needMigrate := true
  minDataServerCount := 2
  buildStrategy := 1
  lostToleranceFlag := .noDataLost
  bucketPlaceFlag := 0
  posMask := 0
  minConfigVersion := 1
  incStep := 1
  floats := { uneven := fun _ _ => false, share := fun _ _ _ => 0 }

/-- A rebuild, up to where it takes the lock again. -/
def rebuildWith (upnodes : List UInt64) : Event :=
  .beginRebuild upnodes (fun _ => 0) ⟨0, 0, 0, 0, 0, 0⟩
    { floats := evenly.floats
      buildStatNormal := false, posMax := 0, maxMachineRoomId := 0, mtokensPerNodeMin := 0
      mtokensPerNodeMaxCount := 0, otokensPerNodeMin := 0, otokensPerNodeMaxCount := 0 }

/-- A server is added, and gets copies of two buckets. -/
def serverAdded : List Event := [rebuildWith [5, 6], .endRebuild, rebuildWith [5, 6, 7], .endRebuild]

theorem fresh_noTable : noTable.Fresh := ⟨by decide, fun _ _ => ⟨rfl, rfl, rfl⟩, Or.inl rfl⟩

theorem proper_serverAdded : ∀ e ∈ serverAdded, e.Proper 3 := by
  intro e he
  unfold serverAdded rebuildWith at he
  simp only [List.mem_cons, List.not_mem_nil, or_false] at he
  rcases he with rfl | rfl | rfl | rfl
  · exact (by decide : (0 : UInt64) ∉ [5, 6])
  · trivial
  · exact (by decide : (0 : UInt64) ∉ [5, 6, 7])
  · trivial

theorem firstKind_serverAdded : ∀ e ∈ serverAdded, e.FirstKind := by
  intro e he
  unfold serverAdded rebuildWith at he
  simp only [List.mem_cons, List.not_mem_nil, or_false] at he
  rcases he with rfl | rfl | rfl | rfl
  · exact List.cons_ne_nil 5 [6]
  · trivial
  · exact List.cons_ne_nil 5 [6, 7]
  · trivial

theorem exists_run_serverAdded : ∃ s, run (.start noTable evenly true, none) serverAdded = .ok s ∧
    s.Sound noTable := by
  obtain ⟨hsound, hshape⟩ := start_sound fresh_noTable.sound evenly true
  obtain ⟨s, hrun, hs, -⟩ := run_ok (sound_none hsound hshape) rfl proper_serverAdded
    firstKind_serverAdded
  exact ⟨s, hrun, hs⟩

/-- With the first kind of builder no run is aborted. -/
theorem run_never_aborts (ht : t.Fresh) (hstrategy : config.buildStrategy = 1)
    (hevents : ∀ e ∈ events, e.Proper t.serverBucketCount.toNat)
    (hfirst : ∀ e ∈ events, e.FirstKind) :
    ∃ s, run (.start t config changed, none) events = .ok s := by
  obtain ⟨hsound, hshape⟩ := start_sound ht.sound config changed
  obtain ⟨s, hrun, -⟩ := run_ok (sound_none hsound hshape)
    ((loadConfig_buildStrategy _ _ _).trans hstrategy) hevents hfirst
  exact ⟨s, hrun⟩

theorem run_never_aborts_serverAdded :
    ∃ s, run (.start noTable evenly true, none) serverAdded = .ok s :=
  run_never_aborts fresh_noTable rfl proper_serverAdded firstKind_serverAdded

section

variable (ht : t.Fresh) (hevents : ∀ e ∈ events, e.Proper t.serverBucketCount.toNat)

include ht hevents

/-- Neither assertion of `group_info` ever fails. -/
theorem run_never_asserts :
    run (.start t config changed, none) events ≠ .error .notMigrated ∧
      run (.start t config changed, none) events ≠ .error .noMachine := by
  rcases run_start ht config changed hevents with habort | ⟨s, hrun, -⟩
  · rw [habort]
    exact ⟨nofun, nofun⟩
  · rw [hrun]
    exact ⟨nofun, nofun⟩

omit ht hevents in
theorem run_never_asserts_serverAdded :
    run (.start noTable evenly true, none) serverAdded ≠ .error .notMigrated ∧
      run (.start noTable evenly true, none) serverAdded ≠ .error .noMachine :=
  run_never_asserts fresh_noTable proper_serverAdded

variable (hrun : run (.start t config changed, none) events = .ok s)

include hrun

/-- The servers from which buckets migrate are in the map, with how many they are, and all are in
the count. -/
theorem run_counts :
    (∀ server n, (server, n) ∈ s.1.migrateMachine ↔
      n = (s.1.serverTable.differing.filter fun i => s.1.serverTable.mHashTable i = server).card ∧
      ∃ i ∈ s.1.serverTable.differing, s.1.serverTable.mHashTable i = server) ∧
    (s.1.serverTable.migrateBlockCount = -1 ∧ s.1.serverTable.differing = ∅ ∨
      s.1.serverTable.migrateBlockCount = s.1.serverTable.differing.card) := by
  have hsound := (sound_of_run ht hevents hrun).group.table
  refine ⟨fun server n => (hsound.machine server n).trans (and_congr_right fun _ => ?_), hsound.count⟩
  exact ⟨exists_of_held_pos, fun ⟨i, hi, heq⟩ => heq ▸ held_pos hi⟩

omit ht hevents hrun in
theorem run_counts_serverAdded : ∃ s, run (.start noTable evenly true, none) serverAdded = .ok s ∧
    (s.1.serverTable.migrateBlockCount = -1 ∧ s.1.serverTable.differing = ∅ ∨
      s.1.serverTable.migrateBlockCount = s.1.serverTable.differing.card) := by
  obtain ⟨s, hrun, -⟩ := exists_run_serverAdded
  exact ⟨s, hrun, (run_counts fresh_noTable proper_serverAdded hrun).2⟩

/-- Clients find a bucket that has not migrated where it is, and when no bucket migrates they have
the table that has been built. -/
theorem run_clients :
    (∀ i ∈ s.1.serverTable.differing, ∀ line < t.copyCount.toNat,
      s.1.serverTable.hashTable (t.cell line i) = s.1.serverTable.mHashTable (t.cell line i)) ∧
    (s.1.serverTable.migrateBlockCount = -1 → ∀ n < t.hashTableSize,
      s.1.serverTable.hashTable n = s.1.serverTable.dHashTable n ∧
      s.1.serverTable.mHashTable n = s.1.serverTable.dHashTable n) := by
  obtain ⟨⟨hsound, -⟩, hshape, -⟩ := sound_of_run ht hevents hrun
  constructor
  · intro i hi line hline
    obtain ⟨hi, hnot⟩ := mem_differing.mp hi
    rw [← hshape.cell]
    exact hsound.clients i hi (Or.inl hnot) line (hshape.copyCount ▸ hline)
  · intro hcount n hn
    have hsame : s.1.serverTable.sameTables = true := by
      refine differing_eq_empty_iff.mp (hsound.count.elim And.right fun hcard => ?_)
      omega
    rw [← hshape.hashTableSize] at hn
    obtain ⟨line, hline, i, hi, rfl⟩ := exists_cell hn
    have hrow := sameTables_iff.mp hsame i hi line hline
    exact ⟨(hsound.clients i hi (Or.inr hcount) line hline).trans hrow, hrow⟩

omit ht hevents hrun in
theorem run_clients_serverAdded : ∃ s, run (.start noTable evenly true, none) serverAdded = .ok s ∧
    (∀ i ∈ s.1.serverTable.differing, ∀ line < 2,
      s.1.serverTable.hashTable (noTable.cell line i) =
        s.1.serverTable.mHashTable (noTable.cell line i)) := by
  obtain ⟨s, hrun, -⟩ := exists_run_serverAdded
  exact ⟨s, hrun, (run_clients fresh_noTable proper_serverAdded hrun).1⟩

/-- Once there is a table every bucket has a master for clients, and all its copies are to be on
servers of their own. -/
theorem run_places : (∀ n < t.hashTableSize, s.1.serverTable.mHashTable n = 0) ∨
    ∀ i < t.serverBucketCount.toNat, s.1.serverTable.hashTable i ≠ 0 ∧
      s.1.serverTable.mHashTable i ≠ 0 ∧
      ∀ line < t.copyCount.toNat, s.1.serverTable.dHashTable (t.cell line i) ≠ 0 ∧
        ∀ line' < line, s.1.serverTable.dHashTable (t.cell line' i) ≠
          s.1.serverTable.dHashTable (t.cell line i) := by
  obtain ⟨⟨hsound, -⟩, hshape, -⟩ := sound_of_run ht hevents hrun
  cases hfirst : s.1.serverTable.firstRun with
  | true =>
    refine Or.inl fun n hn => firstRun_iff.mp hfirst n ?_
    rwa [hshape.hashTableSize]
  | false =>
    refine Or.inr fun i hi => ?_
    have hbuilt := hsound.built hfirst
    rw [← hshape.bucketCount] at hi
    refine ⟨hbuilt.clients i hi, hbuilt.masters i hi, fun line hline => ?_⟩
    rw [← hshape.copyCount] at hline
    simp only [← hshape.cell]
    exact hbuilt.separate i hi line hline

omit ht hevents hrun in
theorem run_places_serverAdded : ∃ s, run (.start noTable evenly true, none) serverAdded = .ok s ∧
    ((∀ n < 6, s.1.serverTable.mHashTable n = 0) ∨ s.1.serverTable.hashTable 2 ≠ 0) := by
  obtain ⟨s, hrun, -⟩ := exists_run_serverAdded
  exact ⟨s, hrun, (run_places fresh_noTable proper_serverAdded hrun).imp id
    fun hplaces => (hplaces 2 (by decide)).1⟩

end

-- ---------------------------------------------------------------------------
-- Migrations end
-- ---------------------------------------------------------------------------

/-- The reports that buckets have migrated, of the servers that have their masters. -/
def reports (t : ServerTable) (buckets : List Nat) : List Event :=
  buckets.map fun i => .finishMigrate (t.mHashTable i) t.serverVersion i

/-- What the reports leave as it is. -/
structure SameTask (g g' : GroupInfo) : Prop where
  config : g'.config = g.config
  shape : SameShape g.serverTable g'.serverTable
  serverVersion : g'.serverTable.serverVersion = g.serverTable.serverVersion
  dHashTable : g'.serverTable.dHashTable = g.serverTable.dHashTable

/-- If the buckets that differ are reported by the servers that have their masters, none differs any
more. -/
theorem run_reports {server : Nat → UInt64} {version : UInt32} {buckets : List Nat} (h : s.1.Sound)
    (hmigrate : s.1.config.needMigrate = true) (hversion : s.1.serverTable.serverVersion = version)
    (hbuckets : ∀ i ∈ buckets, i ≠ s.1.serverTable.serverBucketCount.toNat)
    (hall : ∀ i ∈ s.1.serverTable.differing, i ∈ buckets ∧ s.1.serverTable.mHashTable i = server i) :
    ∃ s', s.run (buckets.map fun i => .finishMigrate (server i) version i) = .ok s' ∧ s'.1.Sound ∧
      s'.1.serverTable.differing = ∅ ∧ SameTask s.1 s'.1 := by
  induction buckets generalizing s with
  | nil =>
    refine ⟨s, rfl, h, ?_, rfl, ⟨rfl, rfl⟩, rfl, rfl⟩
    rw [Finset.eq_empty_iff_forall_notMem]
    exact fun i hi => List.not_mem_nil (hall i hi).1
  | cons i buckets ih =>
    have hi := hbuckets i List.mem_cons_self
    have hrest := fun j hj => hbuckets j (List.mem_cons_of_mem i hj)
    have hfinish : s.1.doFinishMigrate (server i) version i =
        s.1.setMigratingHashtable i (server i) := by
      unfold doFinishMigrate
      rw [if_neg (by rw [hmigrate]; exact Bool.noConfusion), if_neg (not_not.mpr hversion.symm)]
    unfold run
    rw [List.map_cons, List.foldlM_cons]
    dsimp only [step]
    rw [hfinish]
    rcases setMigratingHashtable_cases h (server i) hi with
      ⟨hstays, hor⟩ | ⟨hdiffers, machine', hmoves, hsound, -⟩
    · rw [hstays]
      refine ih (s := s) h hmigrate hversion hrest fun j hj => ?_
      obtain ⟨hmem, heq⟩ := hall j hj
      refine ⟨(List.mem_cons.mp hmem).resolve_left ?_, heq⟩
      rintro rfl
      exact hor.elim (fun hnot => hnot hj) fun hne => hne heq
    · rw [hmoves]
      obtain ⟨s', hrun, hsound', hnone, htask⟩ := ih (s := ({ s.1 with
        migrateMachine := machine'
        shouldSynMigInfo := true
        serverTable := s.1.serverTable.move i }, s.2)) ⟨hsound, h.migrates⟩ hmigrate hversion hrest
        fun j hj => by
          have hb := (mem_differing.mp hdiffers).1
          obtain ⟨hne, hj⟩ := Finset.mem_erase.mp (move_differing hb ▸ hj)
          obtain ⟨hmem, heq⟩ := hall j hj
          have hother := move_other 0 hb (mem_differing.mp hj).1 hne
          rw [cell_zero] at hother
          exact ⟨(List.mem_cons.mp hmem).resolve_left hne, hother.trans heq⟩
      exact ⟨s', hrun, hsound', hnone, htask.config,
        ⟨htask.shape.bucketCount, htask.shape.copyCount⟩, htask.serverVersion, htask.dHashTable⟩

/-- When no bucket differs any more, the migration is over, or has been. -/
theorem checkMigrateComplete_of_none {g : GroupInfo} (h : g.Sound) (hnone : g.serverTable.differing = ∅)
    (hmigrate : g.config.needMigrate = true) (down : UInt64 → Bool) :
    ∃ g', g.checkMigrateComplete down = .ok (true, g') ∧ g'.serverTable.migrateBlockCount = -1 ∧
      g'.migrateMachine = [] ∧ ∀ n < g.serverTable.hashTableSize,
        g'.serverTable.hashTable n = g.serverTable.dHashTable n ∧
        g'.serverTable.mHashTable n = g.serverTable.dHashTable n ∧
        g'.serverTable.dHashTable n = g.serverTable.dHashTable n := by
  have hmachine := h.table.machine_eq_nil_iff.mpr hnone
  have hsame := differing_eq_empty_iff.mp hnone
  have hrows : ∀ n < g.serverTable.hashTableSize,
      g.serverTable.mHashTable n = g.serverTable.dHashTable n := by
    intro n hn
    obtain ⟨line, hline, i, hi, rfl⟩ := exists_cell hn
    exact sameTables_iff.mp hsame i hi line hline
  unfold checkMigrateComplete
  dsimp only
  split
  · next hidle =>
    have hcount : g.serverTable.migrateBlockCount = -1 := by
      have hidle := hidle.resolve_left (by rw [hmigrate]; exact Bool.noConfusion)
      exact not_not.mp (of_decide_eq_false hidle)
    refine ⟨g, rfl, hcount, hmachine, fun n hn => ⟨?_, hrows n hn, rfl⟩⟩
    obtain ⟨line, hline, i, hi, rfl⟩ := exists_cell hn
    rw [h.table.clients i hi (Or.inr hcount) line hline]
    exact hrows _ hn
  · rw [if_neg (not_not.mpr hmachine), if_neg (by rw [hsame]; exact Bool.noConfusion)]
    exact ⟨_, rfl, rfl, hmachine, fun n hn => ⟨if_pos hn, hrows n hn, rfl⟩⟩

/-- A migration ends: once all buckets that differ have been reported, in any order, clients have the
table that has been built. -/
theorem run_completes (ht : t.Fresh) (hevents : ∀ e ∈ events, e.Proper t.serverBucketCount.toNat)
    (hrun : run (.start t config changed, none) events = .ok s)
    (hmigrate : s.1.config.needMigrate = true) {buckets : List Nat}
    (hbuckets : ∀ i ∈ buckets, i ≠ t.serverBucketCount.toNat)
    (hall : ∀ i ∈ s.1.serverTable.differing, i ∈ buckets) (down : UInt64 → Bool) :
    ∃ s', s.run (reports s.1.serverTable buckets ++ [.checkMigrateComplete down]) = .ok s' ∧
      s'.1.serverTable.migrateBlockCount = -1 ∧ s'.1.migrateMachine = [] ∧
      ∀ n < t.hashTableSize, s'.1.serverTable.hashTable n = s.1.serverTable.dHashTable n ∧
        s'.1.serverTable.mHashTable n = s.1.serverTable.dHashTable n ∧
        s'.1.serverTable.dHashTable n = s.1.serverTable.dHashTable n := by
  have hsound := sound_of_run ht hevents hrun
  obtain ⟨s', hreports, hsound', hnone, htask⟩ := run_reports hsound.group hmigrate rfl
    (by rw [hsound.shape.bucketCount]; exact hbuckets) fun i hi => ⟨hall i hi, rfl⟩
  obtain ⟨g, hcheck, hcount, hmachine, htables⟩ := checkMigrateComplete_of_none hsound' hnone
    (by rw [htask.config]; exact hmigrate) down
  refine ⟨(g, s'.2), ?_, hcount, hmachine, ?_⟩
  · have hreports' : List.foldlM step s (reports s.1.serverTable buckets) = .ok s' := hreports
    unfold run
    rw [List.foldlM_append, hreports']
    change (do return ((← s'.1.checkMigrateComplete down).2, s'.2)) >>= pure = _
    rw [hcheck]
    rfl
  · rw [htask.shape.hashTableSize, hsound.shape.hashTableSize, htask.dHashTable] at htables
    exact htables

/-- The reports come in any order. -/
theorem run_completes_serverAdded : ∃ s s', run (.start noTable evenly true, none) serverAdded = .ok s ∧
    s.run (reports s.1.serverTable [2, 1, 0] ++ [.checkMigrateComplete fun _ => false]) = .ok s' ∧
      s'.1.serverTable.migrateBlockCount = -1 := by
  obtain ⟨s, hrun, hsound⟩ := exists_run_serverAdded
  have hmigrate := hsound.group.migrates (by rw [hsound.shape.copyCount]; decide)
  have hall : ∀ i ∈ s.1.serverTable.differing, i ∈ [2, 1, 0] := by
    intro i hi
    have hlt := (mem_differing.mp hi).1
    rw [hsound.shape.bucketCount] at hlt
    change i < 3 at hlt
    rw [List.mem_cons, List.mem_cons, List.mem_singleton]
    omega
  obtain ⟨s', hcheck, hcount, -⟩ := run_completes fresh_noTable proper_serverAdded hrun hmigrate
    (by decide) hall fun _ => false
  exact ⟨s, s', hrun, hcheck, hcount⟩

end GroupState

end Tair
