-- SUMMARY: The group of servers that a configuration server looks after: its tables, and how buckets migrate from one to the other.
import NetworkEtc.Library.CountMap
import NetworkEtc.Tair.TableBuilder2

/-!
# `group_info`

Clients use `hash_table`. While buckets migrate, `m_hash_table` says where they are and
`d_hash_table` where they go. The data servers report every bucket that is done.
-/

namespace Tair

open Library TableBuilder

/-- What `server_table_manager` keeps in its file. -/
structure ServerTable where
  hashTable : Nat → UInt64
  mHashTable : Nat → UInt64
  dHashTable : Nat → UInt64
  migrateBlockCount : Int
  clientVersion : UInt32
  serverVersion : UInt32
  areaCapacityVersion : UInt32
  serverBucketCount : UInt32
  copyCount : UInt32

/-- What is configured. -/
structure GroupConfig where
  /-- `data_need_move == TAIR_DATA_NEED_MIGRATE` -/
  needMigrate : Bool
  minDataServerCount : UInt32
  buildStrategy : Int
  lostToleranceFlag : DataLostToleranceFlag
  bucketPlaceFlag : Int
  posMask : UInt64
  minConfigVersion : UInt32
  /-- The default of `inc_step`. -/
  incStep : UInt32
  /-- What is computed from `diff_ratio`. -/
  floats : Floats

structure GroupInfo where
  serverTable : ServerTable
  config : GroupConfig
  migrateMachine : CountMap UInt64
  shouldSynMigInfo : Bool
  availableServer : List UInt64
  groupCanWork : Bool
  groupIsOK : Bool

/-- What a rebuild has computed when it takes the lock again. -/
structure Pending where
  firstRun : Bool
  quickTable : HashTable
  result : BuildResult
  dest : HashTable

/-- How the process is aborted. -/
inductive Abort where
  /-- in the table builder: a division by zero, or `assert(build_stat_normal)` -/
  | tableBuilder
  /-- `assert(memcmp(m_hash_table, d_hash_table, ..) == 0)` -/
  | notMigrated
  /-- `assert(it != migrate_machine.end())` -/
  | noMachine
  deriving DecidableEq

namespace ServerTable

/-- `get_hash_table_size` -/
def hashTableSize (t : ServerTable) : Nat := t.copyCount.toNat * t.serverBucketCount.toNat

/-- The number of a cell in the arrays. -/
def cell (t : ServerTable) (line i : Nat) : Nat := line * t.serverBucketCount.toNat + i

/-- `memcmp` of `m_hash_table` and `d_hash_table`. -/
def sameTables (t : ServerTable) : Bool :=
  (List.range t.hashTableSize).all fun n => t.mHashTable n = t.dHashTable n

/-- Whether `fill_migrate_machine` counts a bucket. -/
def migrateThisBucket (t : ServerTable) (i : Nat) : Bool :=
  let slaves := List.range' 1 (t.copyCount.toNat - 1)
  t.mHashTable i ≠ 0 ∧ (t.mHashTable i ≠ t.dHashTable i ∨
    ∃ j ∈ slaves, ∀ k ∈ slaves, t.dHashTable (t.cell j i) ≠ t.mHashTable (t.cell k i))

/-- `fill_migrate_machine` -/
def fillMigrateMachine (t : ServerTable) : CountMap UInt64 × Int :=
  (List.range t.serverBucketCount.toNat).foldl (fun filled i =>
    if t.migrateThisBucket i then (filled.1.bump (t.mHashTable i), filled.2 + 1) else filled) ([], 0)

/-- `is_migrating` -/
def isMigrating (t : ServerTable) : Bool := t.migrateBlockCount ≠ -1

/-- No table has been built. -/
def firstRun (t : ServerTable) : Bool :=
  (List.range t.hashTableSize).all fun n => t.mHashTable n = 0

end ServerTable

namespace GroupInfo

/-- `inc_version` -/
def incVersion (g : GroupInfo) (value : UInt32) : UInt32 :=
  let value := value + g.config.incStep
  if value < g.config.minConfigVersion then g.config.minConfigVersion else value

/-- The versions of the tables. -/
def incVersions (g : GroupInfo) : GroupInfo :=
  { g with serverTable := { g.serverTable with
    clientVersion := g.incVersion g.serverTable.clientVersion
    serverVersion := g.incVersion g.serverTable.serverVersion } }

/-- The part of `load_config` that is about the tables. `changed` says whether other settings have
changed that clients have to be told. -/
def loadConfig (g : GroupInfo) (config : GroupConfig) (changed : Bool) : GroupInfo :=
  let g := { g with config := { config with
    needMigrate := 1 < g.serverTable.copyCount ∨ config.needMigrate
    minDataServerCount :=
      if config.minDataServerCount < g.serverTable.copyCount then g.serverTable.copyCount
      else config.minDataServerCount } }
  if changed then g.incVersions else g

/-- `select_build_strategy` -/
def selectBuildStrategy (g : GroupInfo) (upnodes : List UInt64) : Int :=
  let poses := upnodes.map fun id => (id &&& g.config.posMask).toUInt32
  if poses.dedup.length ≤ 1 then 1
  else
    let posMax := (largestRack poses 0).1
    let diffServer := ((upnodes.length : Int) - posMax - posMax).natAbs
    if g.config.floats.uneven diffServer posMax ∨
        upnodes.length < g.serverTable.copyCount.toNat then 1
    else 2

/-- What `rebuild` does with a builder before it takes the lock again, unless it ends before. -/
def buildTables {σ : Type} (g : GroupInfo) (firstRun : Bool) (b : TableBuilder σ)
    (rebuildTable : TableBuilder σ → HashTable → Bool →
      Option (BuildResult × TableBuilder σ × HashTable)) :
    Except Abort (GroupInfo × Option Pending) :=
  let source := b.loadHashTable g.serverTable.mHashTable
  let quick :=
    if g.config.needMigrate ∧ 1 < g.serverTable.copyCount ∧ firstRun = false then
      b.buildQuickTable source
    else (true, b, source)
  if quick.1 = false then .ok (incVersions { g with groupIsOK := false }, none)
  else
    match rebuildTable quick.2.1 source true with
    | none => .error .tableBuilder
    | some (result, _, dest) => .ok (g, some ⟨firstRun, quick.2.2, result, dest⟩)

/-- `rebuild`, up to where it takes the lock again. `upnodes` are the servers that are up; the
members of a new builder of the second kind are what the memory holds. -/
def beginRebuild (g : GroupInfo) (upnodes : List UInt64) (random : Nat → Nat)
    (own₁ : TableBuilder1) (own₂ : TableBuilder2) : Except Abort (GroupInfo × Option Pending) :=
  let g := { g with availableServer := upnodes }
  let firstRun := g.serverTable.firstRun
  if (upnodes.length : Int) < g.config.minDataServerCount.toInt32.toInt then .ok (g.incVersions, none)
  else
    let strategy :=
      if g.config.buildStrategy = 3 then g.selectBuildStrategy upnodes else g.config.buildStrategy
    if strategy = 1 then
      buildTables g firstRun
        (make g.serverTable.serverBucketCount g.serverTable.copyCount g.config.posMask
          g.config.bucketPlaceFlag upnodes g.config.lostToleranceFlag random own₁)
        (rebuildTable TableBuilder1.builder)
    else if strategy = 2 then
      buildTables g firstRun
        (TableBuilder2.setAvailableServer
          (make g.serverTable.serverBucketCount g.serverTable.copyCount g.config.posMask
            g.config.bucketPlaceFlag [] g.config.lostToleranceFlag random
            { own₂ with floats := g.config.floats })
          upnodes)
        TableBuilder2.rebuildTable
    else .ok (g, none)

/-- Buckets whose copies are all lost are taken from the new table. -/
def fillLost (g : GroupInfo) (t : ServerTable) : ServerTable :=
  let lost := fun i => t.mHashTable i ∉ g.availableServer
  if t.copyCount ≤ 1 then
    let fill := fun (table : Nat → UInt64) n =>
      if n < t.hashTableSize ∧ lost n then t.dHashTable n else table n
    { t with mHashTable := fill t.mHashTable, hashTable := fill t.hashTable }
  else if g.config.lostToleranceFlag = .allowDataLost then
    let fill := fun (table : Nat → UInt64) n =>
      if n < t.hashTableSize ∧ lost (n % t.serverBucketCount.toNat) then t.dHashTable n
      else table n
    { t with mHashTable := fill t.mHashTable, hashTable := fill t.hashTable }
  else t

/-- What `rebuild` writes to the tables. -/
def writeTables (g : GroupInfo) (p : Pending) : ServerTable :=
  let t := g.serverTable
  let write := writeHashTable t.serverBucketCount t.copyCount
  let t := { t with dHashTable := write p.dest t.dHashTable }
  if g.config.needMigrate ∧ p.firstRun = false then
    g.fillLost { t with
      mHashTable := write p.quickTable t.mHashTable
      hashTable := write p.quickTable t.hashTable }
  else
    { t with
      mHashTable := write p.dest t.mHashTable
      hashTable := write p.dest t.hashTable }

/-- The rest of `rebuild`. -/
def endRebuild (g : GroupInfo) (p : Pending) : GroupInfo :=
  if p.result = .buildError then incVersions { g with groupCanWork := false, groupIsOK := false }
  else
    let t := g.writeTables p
    let filled := if p.firstRun = false then t.fillMigrateMachine else (g.migrateMachine, 0)
    let g := incVersions { g with
      migrateMachine := filled.1
      serverTable := { t with migrateBlockCount := if 0 < filled.2 then filled.2 else -1 } }
    { g with
      serverTable := { g.serverTable with
        areaCapacityVersion := g.incVersion g.serverTable.areaCapacityVersion }
      groupCanWork := true
      groupIsOK := true }

/-- `set_migrating_hashtable` -/
def setMigratingHashtable (g : GroupInfo) (bucketId : Nat) (serverId : UInt64) :
    Except Abort GroupInfo :=
  let t := g.serverTable
  if t.serverBucketCount.toNat < bucketId ∨ t.isMigrating = false then .ok g
  else if t.mHashTable bucketId ≠ serverId then .ok g
  else if ∀ line < t.copyCount.toNat,
      t.mHashTable (t.cell line bucketId) = t.dHashTable (t.cell line bucketId) then .ok g
  else
    match g.migrateMachine.drop serverId with
    | none => .error .noMachine
    | some migrateMachine =>
      .ok { g with
        migrateMachine := migrateMachine
        shouldSynMigInfo := true
        serverTable := { t with
          mHashTable := fun n =>
            if ∃ line < t.copyCount.toNat, n = t.cell line bucketId then t.dHashTable n
            else t.mHashTable n
          migrateBlockCount := t.migrateBlockCount - 1 } }

/-- `do_finish_migrate` -/
def doFinishMigrate (g : GroupInfo) (serverId : UInt64) (serverVersion : UInt32) (bucketId : Nat) :
    Except Abort GroupInfo :=
  if g.config.needMigrate = false then .ok g
  else if serverVersion ≠ g.serverTable.serverVersion then .ok g
  else g.setMigratingHashtable bucketId serverId

/-- `check_migrate_complete`: whether the migration is over, or has to be done anew. `down` says
which servers are not known, or down. -/
def checkMigrateComplete (g : GroupInfo) (down : UInt64 → Bool) : Except Abort (Bool × GroupInfo) :=
  let t := g.serverTable
  if g.config.needMigrate = false ∨ t.isMigrating = false then .ok (true, g)
  else if g.migrateMachine ≠ [] then
    if ∃ e ∈ g.migrateMachine, down e.1 then .ok (true, g)
    else .ok (false, { g with shouldSynMigInfo := false })
  else if t.sameTables = false then .error .notMigrated
  else
    let g := g.incVersions
    .ok (true, { g with
      shouldSynMigInfo := false
      serverTable := { g.serverTable with
        hashTable := fun n => if n < t.hashTableSize then t.dHashTable n else t.hashTable n
        migrateBlockCount := -1 } })

/-- `hard_check_migrate_complete` -/
def hardCheckMigrateComplete (g : GroupInfo) : GroupInfo :=
  if g.serverTable.sameTables then { g with migrateMachine := [] } else g

/-- A new process opens the file of the tables, and loads its configuration. -/
def start (t : ServerTable) (config : GroupConfig) (changed : Bool) : GroupInfo :=
  loadConfig
    { serverTable := t
      config := config
      migrateMachine := if 0 < t.migrateBlockCount then t.fillMigrateMachine.1 else []
      shouldSynMigInfo := false
      availableServer := []
      groupCanWork := true
      groupIsOK := true } config changed

end GroupInfo

-- ---------------------------------------------------------------------------
-- Runs
-- ---------------------------------------------------------------------------

/-- What happens to a group. -/
inductive Event where
  | loadConfig (config : GroupConfig) (changed : Bool)
  | beginRebuild (upnodes : List UInt64) (random : Nat → Nat) (own₁ : TableBuilder1)
    (own₂ : TableBuilder2)
  | endRebuild
  | finishMigrate (serverId : UInt64) (serverVersion : UInt32) (bucketId : Nat)
  | checkMigrateComplete (down : UInt64 → Bool)
  | hardCheckMigrateComplete
  | restart (config : GroupConfig) (changed : Bool)

/-- A group, and the rebuild that is going on. -/
abbrev GroupState := GroupInfo × Option Pending

/-- There is one thread that rebuilds. Between the two parts of a rebuild everything else may
happen. -/
def GroupState.step (s : GroupState) : Event → Except Abort GroupState
  | .loadConfig config changed => .ok (s.1.loadConfig config changed, s.2)
  | .beginRebuild upnodes random own₁ own₂ =>
    if s.2.isSome then .ok s else s.1.beginRebuild upnodes random own₁ own₂
  | .endRebuild =>
    match s.2 with
    | none => .ok s
    | some p => .ok (s.1.endRebuild p, none)
  | .finishMigrate serverId serverVersion bucketId => do
    return (← s.1.doFinishMigrate serverId serverVersion bucketId, s.2)
  | .checkMigrateComplete down => do
    return ((← s.1.checkMigrateComplete down).2, s.2)
  | .hardCheckMigrateComplete => .ok (s.1.hardCheckMigrateComplete, s.2)
  | .restart config changed => .ok (.start s.1.serverTable config changed, none)

/-- The state after some events. -/
def GroupState.run (s : GroupState) (events : List Event) : Except Abort GroupState :=
  events.foldlM GroupState.step s

end Tair
