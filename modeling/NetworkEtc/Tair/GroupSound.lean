-- SUMMARY: What holds of a group at all times: the tables, what is counted of them, and what clients see.
import NetworkEtc.Tair.Pending
import NetworkEtc.Tair.ServerTable

/-!
# The invariant of a group

Every bucket that is not where it should be is counted for the server that has its master. Clients
find such a bucket where it is.
-/

namespace Tair

open Library

namespace ServerTable

/-- A table has been built. -/
structure Built (t : ServerTable) : Prop where
  masters : ∀ i < t.serverBucketCount.toNat, t.mHashTable i ≠ 0
  clients : ∀ i < t.serverBucketCount.toNat, t.hashTable i ≠ 0
  /-- Every copy of a bucket gets a server of its own. -/
  separate : ∀ i < t.serverBucketCount.toNat, ∀ line < t.copyCount.toNat,
    t.dHashTable (t.cell line i) ≠ 0 ∧
      ∀ line' < line, t.dHashTable (t.cell line' i) ≠ t.dHashTable (t.cell line i)

/-- The tables, with the servers from which buckets migrate. -/
structure Sound (t : ServerTable) (machine : CountMap UInt64) : Prop where
  copy : 0 < t.copyCount.toNat
  /-- What is not where it should be looks so. -/
  seen : ∀ i ∈ t.differing, t.migrateThisBucket i = true
  count : t.migrateBlockCount = -1 ∧ t.differing = ∅ ∨ t.migrateBlockCount = t.differing.card
  machine : machine.Counts (held t.differing t.mHashTable)
  clients : ∀ i < t.serverBucketCount.toNat, ¬ t.SameRow i ∨ t.migrateBlockCount = -1 →
    ∀ line < t.copyCount.toNat, t.hashTable (t.cell line i) = t.mHashTable (t.cell line i)
  built : t.firstRun = false → t.Built

variable {t : ServerTable} {machine : CountMap UInt64} {i : Nat}

/-- The versions do not matter. -/
theorem Sound.versions (h : t.Sound machine) (clientVersion serverVersion areaCapacityVersion : UInt32) :
    Sound { t with
      clientVersion := clientVersion
      serverVersion := serverVersion
      areaCapacityVersion := areaCapacityVersion } machine :=
  ⟨h.copy, h.seen, h.count, h.machine, h.clients, fun hfirst =>
    ⟨(h.built hfirst).masters, (h.built hfirst).clients, (h.built hfirst).separate⟩⟩

/-- Before the first table is built nothing migrates. -/
theorem Sound.differing_of_firstRun (h : t.Sound machine) (hfirst : t.firstRun = true) :
    t.differing = ∅ := by
  rw [Finset.eq_empty_iff_forall_notMem]
  intro i hi
  have hlt := cell_lt h.copy (mem_differing.mp hi).1
  rw [cell_zero] at hlt
  have hmigrate := h.seen i hi
  rw [migrateThisBucket_eq_false_iff.mpr (Or.inl (firstRun_iff.mp hfirst i hlt))] at hmigrate
  exact Bool.noConfusion hmigrate

theorem Sound.machine_eq_nil_iff (h : t.Sound machine) : machine = [] ↔ t.differing = ∅ := by
  rw [h.machine.eq_nil_iff]
  constructor
  · intro hzero
    rw [Finset.eq_empty_iff_forall_notMem]
    intro i hi
    have hpos := held_pos (f := t.mHashTable) hi
    rw [hzero] at hpos
    exact Nat.lt_irrefl 0 hpos
  · intro hempty server
    rw [hempty]
    rfl

/-- If there is a bucket, there is a table once its master is known. -/
theorem firstRun_eq_false (hcopy : 0 < t.copyCount.toNat) (hi : i < t.serverBucketCount.toNat)
    (hmaster : t.mHashTable i ≠ 0) : t.firstRun = false := by
  have hlt := cell_lt hcopy hi
  rw [cell_zero] at hlt
  by_contra hfirst
  exact hmaster (firstRun_iff.mp (Bool.not_eq_false _ ▸ hfirst) i hlt)

-- ---------------------------------------------------------------------------
-- A new table
-- ---------------------------------------------------------------------------

/-- What is counted of a table that has just been written. -/
theorem sound_of_written (hcopy : 0 < t.copyCount.toNat) (hbuilt : t.Built)
    (hseen : ∀ i ∈ t.differing, t.migrateThisBucket i = true)
    (hclients : ∀ i < t.serverBucketCount.toNat, ∀ line < t.copyCount.toNat,
      t.hashTable (t.cell line i) = t.mHashTable (t.cell line i)) :
    Sound { t with
      migrateBlockCount := if 0 < t.fillMigrateMachine.2 then t.fillMigrateMachine.2 else -1 }
      t.fillMigrateMachine.1 := by
  obtain ⟨hcounts, hcard⟩ := fillMigrateMachine_spec hcopy hseen
  refine ⟨hcopy, hseen, ?_, hcounts, fun i hi _ => hclients i hi,
    fun _ => ⟨hbuilt.masters, hbuilt.clients, hbuilt.separate⟩⟩
  dsimp only
  rw [hcard]
  split
  · exact Or.inr rfl
  · next hzero =>
    refine Or.inl ⟨rfl, Finset.card_eq_zero.mp ?_⟩
    change t.differing.card = 0
    omega

/-- Nothing is counted if nothing differs. -/
theorem fillMigrateMachine_of_same (hcopy : 0 < t.copyCount.toNat) (h : t.differing = ∅) :
    t.fillMigrateMachine = ([], 0) := by
  obtain ⟨hcounts, hcard⟩ := fillMigrateMachine_spec hcopy fun i hi =>
    absurd hi (h ▸ Finset.notMem_empty i)
  rw [h] at hcounts hcard
  exact Prod.ext (hcounts.eq_nil_iff.mpr fun server => rfl) hcard

/-- What is written to the arrays. -/
theorem writeHashTable_cell (table : HashTable) (arrays : Nat → UInt64) {line : Nat}
    (hline : line < t.copyCount.toNat) (hi : i < t.serverBucketCount.toNat) :
    TableBuilder.writeHashTable t.serverBucketCount t.copyCount table arrays (t.cell line i) =
      (table line i).first := by
  have hlt : t.cell line i < t.copyCount.toNat * t.serverBucketCount.toNat := cell_lt hline hi
  unfold TableBuilder.writeHashTable
  rw [if_pos hlt, cell_div line hi, cell_mod line hi]

-- ---------------------------------------------------------------------------
-- All buckets have migrated
-- ---------------------------------------------------------------------------

/-- A master of the table that is built. -/
theorem Built.dest (h : t.Built) (hcopy : 0 < t.copyCount.toNat)
    (hi : i < t.serverBucketCount.toNat) : t.dHashTable i ≠ 0 := by
  have := (h.separate i hi 0 hcopy).1
  rwa [cell_zero] at this

/-- Clients get the table that has been built. -/
theorem Sound.complete (h : t.Sound machine) (hnone : t.differing = ∅) :
    Sound { t with
      hashTable := fun n => if n < t.hashTableSize then t.dHashTable n else t.hashTable n
      migrateBlockCount := -1 } machine := by
  have hsame := sameTables_iff.mp (differing_eq_empty_iff.mp hnone)
  refine ⟨h.copy, h.seen, Or.inl ⟨rfl, hnone⟩, h.machine, fun i hi _ line hline => ?_,
    fun hfirst => ⟨(h.built hfirst).masters, fun i hi => ?_, (h.built hfirst).separate⟩⟩
  · exact (if_pos (cell_lt hline hi)).trans (hsame i hi line hline).symm
  · have hlt := cell_lt h.copy hi
    rw [cell_zero] at hlt
    dsimp only
    rw [if_pos hlt]
    exact (h.built hfirst).dest h.copy hi

-- ---------------------------------------------------------------------------
-- A bucket has migrated
-- ---------------------------------------------------------------------------

/-- The row of a bucket becomes what it should be. -/
def move (t : ServerTable) (bucketId : Nat) : ServerTable :=
  { t with
    mHashTable := fun n =>
      if ∃ line < t.copyCount.toNat, n = t.cell line bucketId then t.dHashTable n
      else t.mHashTable n
    migrateBlockCount := t.migrateBlockCount - 1 }

variable {bucketId line : Nat}

theorem move_self (t : ServerTable) (bucketId : Nat) (hline : line < t.copyCount.toNat) :
    (t.move bucketId).mHashTable (t.cell line bucketId) = t.dHashTable (t.cell line bucketId) :=
  if_pos ⟨line, hline, rfl⟩

theorem move_other (line : Nat) (hb : bucketId < t.serverBucketCount.toNat)
    (hi : i < t.serverBucketCount.toNat) (hne : i ≠ bucketId) :
    (t.move bucketId).mHashTable (t.cell line i) = t.mHashTable (t.cell line i) := by
  refine if_neg ?_
  rintro ⟨line', -, heq⟩
  exact hne (cell_inj hi hb heq).2

theorem move_sameRow (hb : bucketId < t.serverBucketCount.toNat)
    (hi : i < t.serverBucketCount.toNat) :
    (t.move bucketId).SameRow i ↔ i = bucketId ∨ t.SameRow i := by
  by_cases hne : i = bucketId
  · subst hne
    exact iff_of_true (fun line hline => move_self t _ hline) (Or.inl rfl)
  · rw [or_iff_right hne]
    exact forall₂_congr fun line _ => by rw [← move_other line hb hi hne]; rfl

theorem move_differing (hb : bucketId < t.serverBucketCount.toNat) :
    (t.move bucketId).differing = t.differing.erase bucketId := by
  ext i
  rw [Finset.mem_erase, mem_differing, mem_differing]
  change i < t.serverBucketCount.toNat ∧ _ ↔ _
  constructor
  · rintro ⟨hi, hnot⟩
    rw [move_sameRow hb hi, not_or] at hnot
    exact ⟨hnot.1, hi, hnot.2⟩
  · rintro ⟨hne, hi, hnot⟩
    rw [move_sameRow hb hi, not_or]
    exact ⟨hi, hne, hnot⟩

/-- Whether another bucket is counted does not change. -/
theorem move_migrateThisBucket (hb : bucketId < t.serverBucketCount.toNat)
    (hi : i < t.serverBucketCount.toNat) (hne : i ≠ bucketId) :
    (t.move bucketId).migrateThisBucket i = t.migrateThisBucket i := by
  have hzero := move_other 0 hb hi hne
  rw [cell_zero] at hzero
  have hiff : (t.move bucketId).migrateThisBucket i = false ↔ t.migrateThisBucket i = false := by
    rw [migrateThisBucket_eq_false_iff, migrateThisBucket_eq_false_iff, hzero]
    simp only [← move_other (t := t) _ hb hi hne]
    rfl
  cases h : t.migrateThisBucket i with
  | false => exact hiff.mpr h
  | true =>
    rw [← Bool.not_eq_false]
    intro hfalse
    rw [hiff.mp hfalse] at h
    exact Bool.noConfusion h

/-- One bucket less has to migrate, and one less from its master. -/
theorem Sound.move (h : t.Sound machine) (hdiffers : bucketId ∈ t.differing)
    (hmigrating : t.isMigrating = true) :
    t.firstRun = false ∧ (t.move bucketId).firstRun = false ∧
      ∃ machine', machine.drop (t.mHashTable bucketId) = some machine' ∧
        (t.move bucketId).Sound machine' := by
  have hb := (mem_differing.mp hdiffers).1
  have hmaster : t.mHashTable bucketId ≠ 0 :=
    (of_decide_eq_true (h.seen bucketId hdiffers)).1
  have hfirst := firstRun_eq_false h.copy hb hmaster
  have hbuilt := h.built hfirst
  have hself : (t.move bucketId).mHashTable bucketId = t.dHashTable bucketId := by
    have := move_self t bucketId h.copy
    rwa [cell_zero] at this
  have hother : ∀ i < t.serverBucketCount.toNat, i ≠ bucketId →
      (t.move bucketId).mHashTable i = t.mHashTable i := by
    intro i hi hne
    have := move_other 0 hb hi hne
    rwa [cell_zero] at this
  have hmasters : ∀ i < t.serverBucketCount.toNat, (t.move bucketId).mHashTable i ≠ 0 := by
    intro i hi
    by_cases hne : i = bucketId
    · subst hne
      rw [hself]
      exact hbuilt.dest h.copy hi
    · rw [hother i hi hne]
      exact hbuilt.masters i hi
  have hcount : t.migrateBlockCount = t.differing.card := by
    refine h.count.resolve_left fun hdone => ?_
    exact of_decide_eq_true hmigrating hdone.1
  have hcard := Finset.card_erase_of_mem hdiffers
  have hpos := Finset.card_pos.mpr ⟨bucketId, hdiffers⟩
  obtain ⟨machine', hdrop, hcounts⟩ := h.machine.drop (held_pos hdiffers)
  refine ⟨hfirst, firstRun_eq_false h.copy hb (hmasters bucketId hb), machine', hdrop,
    ⟨h.copy, fun i hi => ?_, Or.inr ?_, hcounts.congr fun server => ?_, fun i hi hor line hline => ?_,
      fun _ => ⟨hmasters, hbuilt.clients, hbuilt.separate⟩⟩⟩
  · rw [move_differing hb, Finset.mem_erase] at hi
    rw [move_migrateThisBucket hb (mem_differing.mp hi.2).1 hi.1]
    exact h.seen i hi.2
  · rw [move_differing hb, hcard]
    change t.migrateBlockCount - 1 = _
    omega
  · have hrest : held (t.move bucketId).differing (t.move bucketId).mHashTable server =
        held (t.differing.erase bucketId) t.mHashTable server := by
      rw [move_differing hb]
      apply held_congr
      intro i hi
      exact hother i (mem_differing.mp (Finset.mem_of_mem_erase hi)).1 (Finset.ne_of_mem_erase hi)
    rw [hrest]
    by_cases hserver : server = t.mHashTable bucketId
    · subst hserver
      rw [Function.update_self, held_eq hdiffers, if_pos rfl, Nat.add_sub_cancel_left]
    · rw [Function.update_of_ne hserver, held_eq hdiffers, if_neg (Ne.symm hserver), Nat.zero_add]
  · have hnot : ¬ (t.move bucketId).SameRow i := by
      refine hor.resolve_right ?_
      change ¬ t.migrateBlockCount - 1 = -1
      omega
    rw [move_sameRow hb hi, not_or] at hnot
    change t.hashTable (t.cell line i) = (t.move bucketId).mHashTable (t.cell line i)
    rw [move_other line hb hi hnot.1]
    exact h.clients i hi (Or.inl hnot.2) line hline

end ServerTable

-- ---------------------------------------------------------------------------
-- Groups
-- ---------------------------------------------------------------------------

/-- The invariant. -/
structure GroupInfo.Sound (g : GroupInfo) : Prop where
  table : g.serverTable.Sound g.migrateMachine
  /-- Where there are several copies they migrate. -/
  migrates : 1 < g.serverTable.copyCount → g.config.needMigrate = true

/-- No step changes the size of the tables. -/
structure SameShape (t t' : ServerTable) : Prop where
  bucketCount : t'.serverBucketCount = t.serverBucketCount
  copyCount : t'.copyCount = t.copyCount

/-- What holds of a group whose tables are as large as `t`, and of the rebuild that is going on. -/
structure GroupState.Sound (s : GroupState) (t : ServerTable) : Prop where
  group : s.1.Sound
  shape : SameShape t s.1.serverTable
  pending : ∀ p, s.2 = some p → p.Sound s.1.serverTable

namespace GroupInfo

open TableBuilder ServerTable

variable {g g' : GroupInfo}

theorem Sound.incVersions (h : g.Sound) : g.incVersions.Sound :=
  ⟨h.table.versions _ _ _, h.migrates⟩

theorem loadConfig_sound (h : g.serverTable.Sound g.migrateMachine) (config : GroupConfig)
    (changed : Bool) : (g.loadConfig config changed).Sound ∧
      SameShape g.serverTable (g.loadConfig config changed).serverTable ∧
      (g.loadConfig config changed).serverTable.firstRun = g.serverTable.firstRun := by
  have hsound : Sound { g with config := { config with
      needMigrate := 1 < g.serverTable.copyCount ∨ config.needMigrate
      minDataServerCount :=
        if config.minDataServerCount < g.serverTable.copyCount then g.serverTable.copyCount
        else config.minDataServerCount } } :=
    ⟨h, fun hlt => decide_eq_true (Or.inl hlt)⟩
  unfold loadConfig
  dsimp only
  split
  · exact ⟨hsound.incVersions, ⟨rfl, rfl⟩, rfl⟩
  · exact ⟨hsound, ⟨rfl, rfl⟩, rfl⟩

/-- A row of what is lost is taken from the new table, and another one stays what it is. -/
theorem fillLost_spec (g : GroupInfo) (t : ServerTable) : ∃ mTable table,
    g.fillLost t = { t with mHashTable := mTable, hashTable := table } ∧
    ∀ i < t.serverBucketCount.toNat,
      (t.mHashTable i ∉ g.availableServer ∧ ∀ line < t.copyCount.toNat,
        mTable (t.cell line i) = t.dHashTable (t.cell line i) ∧
        table (t.cell line i) = t.dHashTable (t.cell line i)) ∨
      ∀ line < t.copyCount.toNat, mTable (t.cell line i) = t.mHashTable (t.cell line i) ∧
        table (t.cell line i) = t.hashTable (t.cell line i) := by
  unfold fillLost
  dsimp only
  split
  · next hsingle =>
    refine ⟨_, _, rfl, fun i hi => ?_⟩
    have hzero : ∀ line < t.copyCount.toNat, t.cell line i = i := by
      intro line hline
      have hle : t.copyCount.toNat ≤ 1 := hsingle
      obtain rfl : line = 0 := by omega
      exact cell_zero t i
    by_cases hlost : t.mHashTable i ∉ g.availableServer
    · refine Or.inl ⟨hlost, fun line hline => ?_⟩
      have hlt := cell_lt hline hi
      rw [hzero line hline] at hlt ⊢
      exact ⟨if_pos ⟨hlt, hlost⟩, if_pos ⟨hlt, hlost⟩⟩
    · refine Or.inr fun line hline => ?_
      rw [hzero line hline]
      exact ⟨if_neg fun h => hlost h.2, if_neg fun h => hlost h.2⟩
  · split
    · refine ⟨_, _, rfl, fun i hi => ?_⟩
      by_cases hlost : t.mHashTable i ∉ g.availableServer
      · refine Or.inl ⟨hlost, fun line hline => ?_⟩
        have hcond : t.cell line i < t.hashTableSize ∧
            t.mHashTable (t.cell line i % t.serverBucketCount.toNat) ∉ g.availableServer :=
          ⟨cell_lt hline hi, by rwa [cell_mod line hi]⟩
        exact ⟨if_pos hcond, if_pos hcond⟩
      · refine Or.inr fun line hline => ?_
        have hcond : ¬ (t.cell line i < t.hashTableSize ∧
            t.mHashTable (t.cell line i % t.serverBucketCount.toNat) ∉ g.availableServer) := by
          rw [cell_mod line hi]
          exact fun h => hlost h.2
        exact ⟨if_neg hcond, if_neg hcond⟩
    · exact ⟨_, _, rfl, fun i hi => Or.inr fun _ _ => ⟨rfl, rfl⟩⟩

/-- What has been written of a bucket: its row is where it should be, or is that of the quick table. -/
structure Written (t : ServerTable) (p : Pending) (i : Nat) : Prop where
  dest : ∀ line < t.copyCount.toNat, t.dHashTable (t.cell line i) = (p.dest line i).first
  row : (∀ line < t.copyCount.toNat, t.mHashTable (t.cell line i) = t.dHashTable (t.cell line i) ∧
      t.hashTable (t.cell line i) = t.dHashTable (t.cell line i)) ∨
    p.firstRun = false ∧ ∀ line < t.copyCount.toNat,
      t.mHashTable (t.cell line i) = (p.quickTable line i).first ∧
      t.hashTable (t.cell line i) = (p.quickTable line i).first

theorem writeTables_spec (g : GroupInfo) (p : Pending) : ∃ mTable table dTable,
    g.writeTables p =
      { g.serverTable with mHashTable := mTable, hashTable := table, dHashTable := dTable } ∧
    ∀ i < g.serverTable.serverBucketCount.toNat, Written (g.writeTables p) p i := by
  let write := writeHashTable g.serverTable.serverBucketCount g.serverTable.copyCount
  have hwrite : ∀ (table : HashTable) (arrays : Nat → UInt64),
      ∀ i < g.serverTable.serverBucketCount.toNat, ∀ line < g.serverTable.copyCount.toNat,
        write table arrays (g.serverTable.cell line i) = (table line i).first :=
    fun table arrays i hi line hline => writeHashTable_cell table arrays hline hi
  unfold writeTables
  dsimp only
  split
  · next hmigrate =>
    obtain ⟨mTable, table, heq, hrow⟩ := fillLost_spec g { g.serverTable with
      dHashTable := write p.dest g.serverTable.dHashTable
      mHashTable := write p.quickTable g.serverTable.mHashTable
      hashTable := write p.quickTable g.serverTable.hashTable }
    rw [heq]
    refine ⟨mTable, table, _, rfl, fun i hi => ⟨hwrite _ _ i hi, ?_⟩⟩
    refine (hrow i hi).imp And.right fun hkept => ?_
    refine ⟨hmigrate.2, fun line hline => ?_⟩
    obtain ⟨hm, hclient⟩ := hkept line hline
    exact ⟨hm.trans (hwrite _ _ i hi line hline), hclient.trans (hwrite _ _ i hi line hline)⟩
  · refine ⟨_, _, _, rfl, fun i hi => ⟨hwrite _ _ i hi, Or.inl fun line hline => ?_⟩⟩
    have hdest := hwrite p.dest g.serverTable.dHashTable i hi line hline
    exact ⟨(hwrite _ _ i hi line hline).trans hdest.symm,
      (hwrite _ _ i hi line hline).trans hdest.symm⟩

/-- Clients are sent to the master in the quick table, if it is up. -/
theorem writeTables_hashTable {g : GroupInfo} {p : Pending} (hcopy : 0 < g.serverTable.copyCount.toNat)
    (hmigrate : g.config.needMigrate = true) (hfirst : p.firstRun = false) {i : Nat}
    (hi : i < g.serverTable.serverBucketCount.toNat)
    (hup : (p.quickTable 0 i).first ∈ g.availableServer) :
    (g.writeTables p).hashTable i = (p.quickTable 0 i).first := by
  have hwrite : ∀ arrays : Nat → UInt64, writeHashTable g.serverTable.serverBucketCount
      g.serverTable.copyCount p.quickTable arrays i = (p.quickTable 0 i).first := by
    intro arrays
    have hcell := writeHashTable_cell p.quickTable arrays hcopy hi
    rwa [cell_zero] at hcell
  unfold writeTables
  dsimp only
  rw [if_pos ⟨hmigrate, hfirst⟩]
  generalize ht : ({ g.serverTable with
    dHashTable := writeHashTable g.serverTable.serverBucketCount g.serverTable.copyCount p.dest
      g.serverTable.dHashTable
    mHashTable := writeHashTable g.serverTable.serverBucketCount g.serverTable.copyCount p.quickTable
      g.serverTable.mHashTable
    hashTable := writeHashTable g.serverTable.serverBucketCount g.serverTable.copyCount p.quickTable
      g.serverTable.hashTable } : ServerTable) = t
  obtain ⟨mTable, table, heq, hrow⟩ := fillLost_spec g t
  rw [heq]
  subst ht
  have hkept := (hrow i hi).resolve_left fun hlost => hlost.1 (by dsimp only; rwa [hwrite])
  have hclient := (hkept 0 hcopy).2
  rw [cell_zero] at hclient
  exact hclient.trans (hwrite _)

namespace Written

variable {t : ServerTable} {p : Pending} {i : Nat} (h : Written t p i) (hcopy : 0 < t.copyCount.toNat)
  (hdest : p.dest.Separate t.copyCount.toNat i)
  (hagree : p.firstRun = false → p.quickTable.Agree p.dest t.copyCount.toNat i)

include h

theorem clients {line : Nat} (hline : line < t.copyCount.toNat) :
    t.hashTable (t.cell line i) = t.mHashTable (t.cell line i) := by
  rcases h.row with hsame | ⟨-, hquick⟩
  · rw [(hsame line hline).1, (hsame line hline).2]
  · rw [(hquick line hline).1, (hquick line hline).2]

theorem quick (hnot : ¬ t.SameRow i) : p.firstRun = false ∧ ∀ line < t.copyCount.toNat,
    t.mHashTable (t.cell line i) = (p.quickTable line i).first := by
  obtain ⟨hfirst, hquick⟩ := h.row.resolve_left fun hall => hnot fun line hline => (hall line hline).1
  exact ⟨hfirst, fun line hline => (hquick line hline).1⟩

include hcopy hdest hagree

theorem master : t.mHashTable i ≠ 0 := by
  have hzero := cell_zero t i
  by_cases hsame : t.SameRow i
  · rw [← hzero, hsame 0 hcopy, h.dest 0 hcopy]
    exact (hdest 0 hcopy).1
  · obtain ⟨hfirst, hquick⟩ := h.quick hsame
    rw [← hzero, hquick 0 hcopy]
    exact (hagree hfirst).master

/-- What is not where it should be looks so. -/
theorem seen (hnot : ¬ t.SameRow i) : t.migrateThisBucket i = true := by
  obtain ⟨hfirst, hquick⟩ := h.quick hnot
  rw [← Bool.not_eq_false]
  intro hfalse
  obtain ⟨heq, hfound⟩ := (migrateThisBucket_eq_false_iff.mp hfalse).resolve_left
    (h.master hcopy hdest hagree)
  refine hnot fun line hline => ?_
  rw [hquick line hline, h.dest line hline]
  refine (hagree hfirst).same ?_ (fun line hpos hline => ?_) line hline
  · rw [← hquick 0 hcopy, ← h.dest 0 hcopy, cell_zero]
    exact heq
  · obtain ⟨line', hpos', hline', hfind⟩ := hfound line hpos hline
    refine ⟨line', hpos', hline', ?_⟩
    rw [← hquick line' hline', ← hfind, h.dest line hline]

end Written

variable {p : Pending}

/-- A new table. -/
theorem endRebuild_sound (h : g.Sound) (hp : p.Sound g.serverTable) : (g.endRebuild p).Sound ∧
    SameShape g.serverTable (g.endRebuild p).serverTable := by
  unfold endRebuild
  split
  · exact ⟨Sound.incVersions ⟨h.table, h.migrates⟩, rfl, rfl⟩
  next hok =>
  obtain ⟨mTable, table, dTable, ht, hwritten⟩ := writeTables_spec g p
  rw [ht] at hwritten ⊢
  set t : ServerTable :=
    { g.serverTable with mHashTable := mTable, hashTable := table, dHashTable := dTable }
  have hcopy : 0 < t.copyCount.toNat := h.table.copy
  have hdest : ∀ i < t.serverBucketCount.toNat, p.dest.Separate t.copyCount.toNat i := hp.dest hok
  have hagree : ∀ i < t.serverBucketCount.toNat, p.firstRun = false →
      p.quickTable.Agree p.dest t.copyCount.toNat i := fun i hi hfirst => hp.quick hok hfirst i hi
  have hbuilt : t.Built := by
    have hmasters : ∀ i < t.serverBucketCount.toNat, t.mHashTable i ≠ 0 := fun i hi =>
      (hwritten i hi).master hcopy (hdest i hi) (hagree i hi)
    refine ⟨hmasters, fun i hi => ?_, fun i hi line hline => ?_⟩
    · rw [← cell_zero t i, (hwritten i hi).clients hcopy, cell_zero]
      exact hmasters i hi
    · obtain ⟨hzero, hne⟩ := hdest i hi line hline
      rw [(hwritten i hi).dest line hline]
      refine ⟨hzero, fun line' hlt => ?_⟩
      rw [(hwritten i hi).dest line' (hlt.trans hline)]
      exact hne line' hlt
  have hseen : ∀ i ∈ t.differing, t.migrateThisBucket i = true := by
    intro i hi
    obtain ⟨hi, hnot⟩ := mem_differing.mp hi
    exact (hwritten i hi).seen hcopy (hdest i hi) (hagree i hi) hnot
  have hfilled : (if p.firstRun = false then t.fillMigrateMachine else (g.migrateMachine, 0)) =
      t.fillMigrateMachine := by
    split
    · rfl
    · next hfirst =>
      have hnone : t.differing = ∅ := by
        rw [Finset.eq_empty_iff_forall_notMem]
        intro i hi
        obtain ⟨hi, hnot⟩ := mem_differing.mp hi
        exact hfirst ((hwritten i hi).quick hnot).1
      rw [fillMigrateMachine_of_same hcopy hnone, h.table.machine_eq_nil_iff.mpr
        (h.table.differing_of_firstRun (hp.firstRun ▸ Bool.not_eq_false _ ▸ hfirst))]
  dsimp only
  rw [hfilled]
  exact ⟨⟨(sound_of_written hcopy hbuilt hseen
    fun i hi line hline => (hwritten i hi).clients hline).versions _ _ _, h.migrates⟩, rfl, rfl⟩

theorem sound_none {t : ServerTable} (h : g.Sound) (hshape : SameShape t g.serverTable) :
    GroupState.Sound (g, none) t :=
  ⟨h, hshape, fun p hp => by cases hp⟩

section

variable {σ : Type} {b : TableBuilder σ} {V : Virtual σ} {servers : List UInt64} {s : GroupState}
  {rebuildTable : TableBuilder σ → HashTable → Bool →
    Option (BuildResult × TableBuilder σ × HashTable)}

/-- How the first part of a rebuild ends. -/
theorem buildTables_cases (g : GroupInfo) (firstRun : Bool) (b : TableBuilder σ)
    (rebuildTable : TableBuilder σ → HashTable → Bool →
      Option (BuildResult × TableBuilder σ × HashTable)) :
    g.buildTables firstRun b rebuildTable = .error .tableBuilder ∨
    g.buildTables firstRun b rebuildTable =
      .ok (GroupInfo.incVersions { g with groupIsOK := false }, none) ∨
    ∃ p, g.buildTables firstRun b rebuildTable = .ok (g, some p) := by
  unfold GroupInfo.buildTables
  dsimp only
  generalize (if g.config.needMigrate = true ∧ 1 < g.serverTable.copyCount ∧ firstRun = false then
      b.buildQuickTable (b.loadHashTable g.serverTable.mHashTable)
    else (true, b, b.loadHashTable g.serverTable.mHashTable)) = quick
  split
  · exact Or.inr (Or.inl rfl)
  · split
    · exact Or.inl rfl
    · exact Or.inr (Or.inr ⟨_, rfl⟩)

/-- A rebuild with a builder. -/
theorem Sound.buildTables (h : g.Sound) (hV : V.Lawful)
    (hrebuild : ∀ c source result c' dest,
      rebuildTable c source true = some (result, c', dest) → result ≠ .buildError →
      TableBuilder.rebuildTable V c source true = some (.buildOk, c', dest))
    (hservers : b.availableServer = availableServers b.posMask servers) (hzero : 0 ∉ servers)
    (hbuckets : b.bucketCount = g.serverTable.serverBucketCount)
    (hcopies : b.copyCount = g.serverTable.copyCount) :
    g.buildTables g.serverTable.firstRun b rebuildTable = .error .tableBuilder ∨
      ∃ s, g.buildTables g.serverTable.firstRun b rebuildTable = .ok s ∧
        GroupState.Sound s g.serverTable := by
  rcases buildTables_cases g g.serverTable.firstRun b rebuildTable with
    habort | hlost | ⟨p, hbuilt⟩
  · exact Or.inl habort
  · exact Or.inr ⟨_, hlost, sound_none (Sound.incVersions ⟨h.table, h.migrates⟩) ⟨rfl, rfl⟩⟩
  · refine Or.inr ⟨_, hbuilt, h, ⟨rfl, rfl⟩, fun p' hp' => ?_⟩
    cases hp'
    exact (buildTables_sound hservers hzero hbuckets hcopies h.table.copy hV hrebuild
      h.migrates (fun hfirst => (h.table.built hfirst).masters) hbuilt).2

end

/-- A rebuild begins. -/
theorem beginRebuild_sound (h : g.Sound) {upnodes : List UInt64} (hzero : 0 ∉ upnodes)
    (random : Nat → Nat) (own₁ : TableBuilder1) (own₂ : TableBuilder2) :
    g.beginRebuild upnodes random own₁ own₂ = .error .tableBuilder ∨
      ∃ s, g.beginRebuild upnodes random own₁ own₂ = .ok s ∧ GroupState.Sound s g.serverTable := by
  have hup : Sound { g with availableServer := upnodes } := ⟨h.table, h.migrates⟩
  unfold beginRebuild
  dsimp only
  split
  · exact Or.inr ⟨_, rfl, sound_none hup.incVersions ⟨rfl, rfl⟩⟩
  generalize (if g.config.buildStrategy = 3 then
    selectBuildStrategy { g with availableServer := upnodes } upnodes
    else g.config.buildStrategy) = strategy
  split
  · refine hup.buildTables TableBuilder1.lawful ?_ ?_ hzero ?_ ?_
    · exact fun _ _ _ _ _ hrun hok => buildOk_of_noQuickTable hrun hok
    · rfl
    · rfl
    · rfl
  split
  · refine hup.buildTables TableBuilder2.lawful ?_ ?_ hzero ?_ ?_
    · intro c source result c' dest hrun hok
      unfold TableBuilder2.rebuildTable at hrun
      split at hrun
      · cases hrun
        exact absurd rfl hok
      · exact buildOk_of_noQuickTable hrun hok
    · rfl
    · rfl
    · rfl
  · exact Or.inr ⟨_, rfl, sound_none hup ⟨rfl, rfl⟩⟩

/-- A bucket that a server says it has migrated: either nothing changes, or its row. -/
theorem setMigratingHashtable_cases (h : g.Sound) (serverId : UInt64) {bucketId : Nat}
    (hb : bucketId ≠ g.serverTable.serverBucketCount.toNat) :
    g.setMigratingHashtable bucketId serverId = .ok g ∧
      (bucketId ∉ g.serverTable.differing ∨ g.serverTable.mHashTable bucketId ≠ serverId) ∨
    bucketId ∈ g.serverTable.differing ∧ ∃ machine',
      g.setMigratingHashtable bucketId serverId = .ok { g with
        migrateMachine := machine'
        shouldSynMigInfo := true
        serverTable := g.serverTable.move bucketId } ∧
      (g.serverTable.move bucketId).Sound machine' ∧
      (g.serverTable.move bucketId).firstRun = g.serverTable.firstRun := by
  unfold setMigratingHashtable
  dsimp only
  split
  · next hstays =>
    refine Or.inl ⟨rfl, Or.inl fun hdiffers => ?_⟩
    rcases hstays with hlt | hidle
    · exact Nat.lt_asymm hlt (mem_differing.mp hdiffers).1
    · have hcount := of_decide_eq_false hidle
      rcases h.table.count with ⟨-, hnone⟩ | hcard
      · rw [hnone] at hdiffers
        exact Finset.notMem_empty _ hdiffers
      · exact hcount (by omega)
  next hmigrating =>
  split
  · next hserver => exact Or.inl ⟨rfl, Or.inr hserver⟩
  next hserver =>
  split
  · next hsame => exact Or.inl ⟨rfl, Or.inl fun hdiffers => (mem_differing.mp hdiffers).2 hsame⟩
  next hnot =>
  rw [not_or, Bool.not_eq_false] at hmigrating
  have hdiffers : bucketId ∈ g.serverTable.differing := mem_differing.mpr ⟨by omega, hnot⟩
  obtain ⟨hfirst, hfirst', machine', hdrop, hsound⟩ := h.table.move hdiffers hmigrating.2
  rw [← not_not.mp hserver, hdrop]
  exact Or.inr ⟨hdiffers, machine', rfl, hsound, hfirst'.trans hfirst.symm⟩

theorem doFinishMigrate_sound (h : g.Sound) (serverId : UInt64) (serverVersion : UInt32)
    (bucketId : Nat) (hb : bucketId ≠ g.serverTable.serverBucketCount.toNat) :
    ∃ g', g.doFinishMigrate serverId serverVersion bucketId = .ok g' ∧ g'.Sound ∧
      SameShape g.serverTable g'.serverTable ∧ g'.serverTable.firstRun = g.serverTable.firstRun := by
  unfold doFinishMigrate
  split
  · exact ⟨g, rfl, h, ⟨rfl, rfl⟩, rfl⟩
  split
  · exact ⟨g, rfl, h, ⟨rfl, rfl⟩, rfl⟩
  rcases setMigratingHashtable_cases h serverId hb with
    ⟨hstays, -⟩ | ⟨-, machine', hmoves, hsound, hfirst⟩
  · exact ⟨g, hstays, h, ⟨rfl, rfl⟩, rfl⟩
  · exact ⟨_, hmoves, ⟨hsound, h.migrates⟩, ⟨rfl, rfl⟩, hfirst⟩

/-- Whether the migration is over. -/
theorem checkMigrateComplete_sound (h : g.Sound) (down : UInt64 → Bool) :
    ∃ done g', g.checkMigrateComplete down = .ok (done, g') ∧ g'.Sound ∧
      SameShape g.serverTable g'.serverTable ∧ g'.serverTable.firstRun = g.serverTable.firstRun := by
  unfold checkMigrateComplete
  dsimp only
  split
  · exact ⟨_, _, rfl, h, ⟨rfl, rfl⟩, rfl⟩
  split
  · split
    · exact ⟨_, _, rfl, h, ⟨rfl, rfl⟩, rfl⟩
    · exact ⟨_, _, rfl, ⟨h.table, h.migrates⟩, ⟨rfl, rfl⟩, rfl⟩
  next hempty =>
  have hnone := h.table.machine_eq_nil_iff.mp (not_not.mp hempty)
  have hsame := differing_eq_empty_iff.mp hnone
  split
  · next hdiffer =>
    rw [hsame] at hdiffer
    exact Bool.noConfusion hdiffer
  · exact ⟨_, _, rfl, ⟨(h.table.complete hnone).versions _ _ _, h.migrates⟩, ⟨rfl, rfl⟩, rfl⟩

/-- The other check. -/
theorem hardCheckMigrateComplete_eq (h : g.Sound) : g.hardCheckMigrateComplete = g := by
  unfold hardCheckMigrateComplete
  split
  · next hsame =>
    rw [← h.table.machine_eq_nil_iff.mpr (differing_eq_empty_iff.mpr hsame)]
  · rfl

/-- Another process takes over. -/
theorem start_sound {t : ServerTable} {machine : CountMap UInt64} (h : t.Sound machine)
    (config : GroupConfig) (changed : Bool) :
    (start t config changed).Sound ∧ SameShape t (start t config changed).serverTable := by
  have hmachine : (if 0 < t.migrateBlockCount then t.fillMigrateMachine.1 else []).Counts
      (held t.differing t.mHashTable) := by
    split
    · exact (fillMigrateMachine_spec h.copy h.seen).1
    · next hcount =>
      have hnone : t.differing = ∅ := by
        rcases h.count with ⟨-, hnone⟩ | hcard
        · exact hnone
        · exact Finset.card_eq_zero.mp (by omega)
      rw [hnone]
      exact CountMap.counts_nil fun server => rfl
  obtain ⟨hsound, hshape, -⟩ := loadConfig_sound (g :=
    { serverTable := t
      config := config
      migrateMachine := if 0 < t.migrateBlockCount then t.fillMigrateMachine.1 else []
      shouldSynMigInfo := false
      availableServer := []
      groupCanWork := true
      groupIsOK := true }) ⟨h.copy, h.seen, h.count, hmachine, h.clients, h.built⟩ config changed
  exact ⟨hsound, hshape⟩

end GroupInfo

end Tair
