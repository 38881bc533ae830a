-- SUMMARY: What holds in every run of a configuration server: no assertion fails, what is counted is right, and migrations end.
import NetworkEtc.Tair.GroupSound

/-!
# Runs

A run begins with a file of empty tables. Rebuilds, reports of data servers, checks and restarts
come in any order.
-/

namespace Tair

open Library

/-- A file that has just been created. -/
structure ServerTable.Fresh (t : ServerTable) : Prop where
  copy : 0 < t.copyCount.toNat
  empty : ∀ n < t.hashTableSize, t.hashTable n = 0 ∧ t.mHashTable n = 0 ∧ t.dHashTable n = 0
  count : t.migrateBlockCount = -1 ∨ t.migrateBlockCount = 0

/-- Only the first kind of builder is configured, and a rebuild has a server. -/
def Event.FirstKind : Event → Prop
  | .loadConfig config _ => config.buildStrategy = 1
  | .beginRebuild upnodes _ _ _ => upnodes ≠ []
  | .restart config _ => config.buildStrategy = 1
  | _ => True

/-- No server has the id 0, and reports are about buckets. -/
def Event.Proper (bucketCount : Nat) : Event → Prop
  | .beginRebuild upnodes _ _ _ => 0 ∉ upnodes
  | .finishMigrate _ _ bucketId => bucketId ≠ bucketCount
  | _ => True

open ServerTable

theorem ServerTable.Fresh.sound {t : ServerTable} (h : t.Fresh) : t.Sound [] := by
  have hsame : ∀ i < t.serverBucketCount.toNat, t.SameRow i := by
    intro i hi line hline
    obtain ⟨-, hm, hd⟩ := h.empty _ (cell_lt hline hi)
    rw [hm, hd]
  have hnone : t.differing = ∅ := differing_eq_empty_iff.mpr (sameTables_iff.mpr hsame)
  refine ⟨h.copy, fun i hi => ?_, ?_, ?_, fun i hi _ line hline => ?_, fun hfirst => ?_⟩
  · rw [hnone] at hi
    exact absurd hi (Finset.notMem_empty i)
  · rw [hnone]
    exact h.count.imp (fun hcount => ⟨hcount, rfl⟩) id
  · rw [hnone]
    exact CountMap.counts_nil fun server => rfl
  · obtain ⟨hclient, hm, -⟩ := h.empty _ (cell_lt hline hi)
    rw [hclient, hm]
  · rw [firstRun_iff.mpr fun n hn => (h.empty n hn).2.1] at hfirst
    exact Bool.noConfusion hfirst

namespace SameShape

variable {t t' t'' : ServerTable}

theorem trans (h : SameShape t t') (h' : SameShape t' t'') : SameShape t t'' :=
  ⟨h'.bucketCount.trans h.bucketCount, h'.copyCount.trans h.copyCount⟩

theorem cell (h : SameShape t t') (line i : Nat) : t'.cell line i = t.cell line i := by
  rw [ServerTable.cell, ServerTable.cell, h.bucketCount]

theorem hashTableSize (h : SameShape t t') : t'.hashTableSize = t.hashTableSize := by
  rw [ServerTable.hashTableSize, ServerTable.hashTableSize, h.bucketCount, h.copyCount]

end SameShape

namespace GroupState

open GroupInfo

variable {s s' : GroupState} {t : ServerTable} {events : List Event} {config : GroupConfig}
  {changed : Bool}

/-- What a rebuild has computed is as good for tables of the same size. -/
theorem pending_of_sameShape {t t' : ServerTable} {p : Pending} (h : p.Sound t)
    (hshape : SameShape t t') (hfirst : t'.firstRun = t.firstRun) : p.Sound t' := by
  refine ⟨h.firstRun.trans hfirst.symm, ?_, ?_⟩
  · rw [hshape.bucketCount, hshape.copyCount]
    exact h.dest
  · rw [hshape.bucketCount, hshape.copyCount]
    exact h.quick

/-- A step that leaves a rebuild alone. -/
theorem sound_meanwhile (h : s.Sound t) {g : GroupInfo} (hg : g.Sound)
    (hshape : SameShape s.1.serverTable g.serverTable)
    (hfirst : g.serverTable.firstRun = s.1.serverTable.firstRun) : GroupState.Sound (g, s.2) t :=
  ⟨hg, SameShape.trans h.shape hshape, fun p hp => pending_of_sameShape (h.pending p hp) hshape hfirst⟩

/-- A step. The only way to be aborted is in a table builder. -/
theorem step_sound (h : s.Sound t) {e : Event} (he : e.Proper t.serverBucketCount.toNat) :
    s.step e = .error .tableBuilder ∨ ∃ s', s.step e = .ok s' ∧ s'.Sound t := by
  cases e with
  | loadConfig config changed =>
    obtain ⟨hsound, hshape, hfirst⟩ := loadConfig_sound h.group.table config changed
    exact Or.inr ⟨(_, s.2), rfl, sound_meanwhile h hsound hshape hfirst⟩
  | beginRebuild upnodes random own₁ own₂ =>
    dsimp only [step]
    split
    · exact Or.inr ⟨s, rfl, h⟩
    · rcases beginRebuild_sound h.group he random own₁ own₂ with habort | ⟨s', hbegin, hsound⟩
      · exact Or.inl habort
      · exact Or.inr ⟨s', hbegin, hsound.group, SameShape.trans h.shape hsound.shape, hsound.pending⟩
  | endRebuild =>
    dsimp only [step]
    split
    · exact Or.inr ⟨s, rfl, h⟩
    · next p hp =>
      obtain ⟨hsound, hshape⟩ := endRebuild_sound h.group (h.pending p hp)
      exact Or.inr ⟨_, rfl, sound_none hsound (SameShape.trans h.shape hshape)⟩
  | finishMigrate serverId serverVersion bucketId =>
    obtain ⟨g, hfinish, hsound, hshape, hfirst⟩ := doFinishMigrate_sound h.group serverId
      serverVersion bucketId (by rw [h.shape.bucketCount]; exact he)
    refine Or.inr ⟨(g, s.2), ?_, sound_meanwhile h hsound hshape hfirst⟩
    dsimp only [step]
    rw [hfinish]
    rfl
  | checkMigrateComplete down =>
    obtain ⟨done, g, hcheck, hsound, hshape, hfirst⟩ := checkMigrateComplete_sound h.group down
    refine Or.inr ⟨(g, s.2), ?_, sound_meanwhile h hsound hshape hfirst⟩
    dsimp only [step]
    rw [hcheck]
    rfl
  | hardCheckMigrateComplete =>
    refine Or.inr ⟨(s.1, s.2), ?_, h⟩
    dsimp only [step]
    rw [hardCheckMigrateComplete_eq h.group]
  | restart config changed =>
    obtain ⟨hsound, hshape⟩ := start_sound h.group.table config changed
    exact Or.inr ⟨(_, none), rfl, sound_none hsound (SameShape.trans h.shape hshape)⟩

theorem run_sound (h : s.Sound t) (hevents : ∀ e ∈ events, e.Proper t.serverBucketCount.toNat) :
    s.run events = .error .tableBuilder ∨ ∃ s', s.run events = .ok s' ∧ s'.Sound t := by
  induction events generalizing s with
  | nil => exact Or.inr ⟨s, rfl, h⟩
  | cons e events ih =>
    unfold run
    rw [List.foldlM_cons]
    rcases step_sound h (hevents e List.mem_cons_self) with habort | ⟨s', hstep, hsound⟩
    · rw [habort]
      exact Or.inl rfl
    · rw [hstep]
      exact ih hsound fun e' he' => hevents e' (List.mem_cons_of_mem e he')

/-- A run that begins with empty tables. -/
theorem run_start (ht : t.Fresh) (config : GroupConfig) (changed : Bool)
    (hevents : ∀ e ∈ events, e.Proper t.serverBucketCount.toNat) :
    run (.start t config changed, none) events = .error .tableBuilder ∨
      ∃ s, run (.start t config changed, none) events = .ok s ∧ s.Sound t := by
  obtain ⟨hsound, hshape⟩ := start_sound ht.sound config changed
  exact run_sound (sound_none hsound hshape) hevents

/-- What holds in the states of such a run. -/
theorem sound_of_run (ht : t.Fresh) (hevents : ∀ e ∈ events, e.Proper t.serverBucketCount.toNat)
    (hrun : run (.start t config changed, none) events = .ok s) : s.Sound t := by
  rcases run_start ht config changed hevents with habort | ⟨s', hrun', hsound⟩
  · rw [hrun] at habort
    cases habort
  · rw [hrun] at hrun'
    cases hrun'
    exact hsound

-- ---------------------------------------------------------------------------
-- Runs that are not aborted
-- ---------------------------------------------------------------------------

/-- The first kind of builder has only to have servers. -/
theorem rebuildTable_ne_none {b : TableBuilder TableBuilder1} (hservers : b.availableServer ≠ [])
    (source : HashTable) (noQuickTable : Bool) :
    TableBuilder.rebuildTable TableBuilder1.builder b source noQuickTable ≠ none := by
  obtain ⟨c, hc, -⟩ := TableBuilder1.exists_counted (List.length_pos_of_ne_nil hservers) source
  unfold TableBuilder.rebuildTable
  rw [hc]
  change (if _ then _ else _) ≠ none
  split
  · split
    · nofun
    · nofun
  · split
    · nofun
    · split
      · nofun
      · nofun

theorem buildTables_ne_error {g : GroupInfo} {b : TableBuilder TableBuilder1}
    (hservers : b.availableServer ≠ []) (firstRun : Bool) (abort : Abort) :
    g.buildTables firstRun b (TableBuilder.rebuildTable TableBuilder1.builder) ≠ .error abort := by
  unfold buildTables
  dsimp only
  generalize hquick : (if g.config.needMigrate = true ∧ 1 < g.serverTable.copyCount ∧
    firstRun = false then b.buildQuickTable (b.loadHashTable g.serverTable.mHashTable)
    else (true, b, b.loadHashTable g.serverTable.mHashTable)) = quick
  split
  · nofun
  next hok =>
  have hservers' : quick.2.1.availableServer ≠ [] := by
    split at hquick
    · subst hquick
      have hrows := TableBuilder.buildQuickTable_rows (Bool.not_eq_false _ ▸ hok)
      rw [hrows.1.availableServer]
      exact hservers
    · subst hquick
      exact hservers
  split
  · next hnone => exact absurd hnone (rebuildTable_ne_none hservers' _ _)
  · nofun

theorem beginRebuild_ne_error {g : GroupInfo} (hstrategy : g.config.buildStrategy = 1)
    {upnodes : List UInt64} (hup : upnodes ≠ []) (random : Nat → Nat) (own₁ : TableBuilder1)
    (own₂ : TableBuilder2) (abort : Abort) :
    g.beginRebuild upnodes random own₁ own₂ ≠ .error abort := by
  obtain ⟨id, hid⟩ := List.exists_mem_of_ne_nil upnodes hup
  unfold beginRebuild
  dsimp only
  split
  · nofun
  have hfirst : (if g.config.buildStrategy = 3 then
      selectBuildStrategy { g with availableServer := upnodes } upnodes
      else g.config.buildStrategy) = 1 := by
    rw [hstrategy]
    rfl
  rw [if_pos hfirst]
  exact buildTables_ne_error (List.ne_nil_of_mem (TableBuilder.mem_availableServers hid)) _ abort

theorem beginRebuild_config {g : GroupInfo} {upnodes : List UInt64} {random : Nat → Nat}
    {own₁ : TableBuilder1} {own₂ : TableBuilder2}
    (h : g.beginRebuild upnodes random own₁ own₂ = .ok s) : s.1.config = g.config := by
  have hbuild : ∀ {σ : Type} {g' : GroupInfo} {firstRun : Bool} {b : TableBuilder σ}
      {rebuildTable : TableBuilder σ → HashTable → Bool →
        Option (BuildResult × TableBuilder σ × HashTable)},
      g'.buildTables firstRun b rebuildTable = .ok s → s.1.config = g'.config := by
    intro σ g' firstRun b rebuildTable hs
    rcases buildTables_cases g' firstRun b rebuildTable with
      habort | hlost | ⟨p, hbuilt⟩
    · rw [habort] at hs
      cases hs
    · rw [hlost] at hs
      cases hs
      rfl
    · rw [hbuilt] at hs
      cases hs
      rfl
  unfold beginRebuild at h
  dsimp only at h
  split at h
  · cases h
    rfl
  generalize (if g.config.buildStrategy = 3 then
    selectBuildStrategy { g with availableServer := upnodes } upnodes
    else g.config.buildStrategy) = strategy at h
  split at h
  · have hconfig := hbuild h
    exact hconfig
  split at h
  · have hconfig := hbuild h
    exact hconfig
  · cases h
    rfl

theorem doFinishMigrate_config {g g' : GroupInfo} {serverId : UInt64} {serverVersion : UInt32}
    {bucketId : Nat} (h : g.doFinishMigrate serverId serverVersion bucketId = .ok g') :
    g'.config = g.config ∧ g'.availableServer = g.availableServer := by
  unfold doFinishMigrate setMigratingHashtable at h
  dsimp only at h
  split at h
  · cases h
    exact ⟨rfl, rfl⟩
  split at h
  · cases h
    exact ⟨rfl, rfl⟩
  split at h
  · cases h
    exact ⟨rfl, rfl⟩
  split at h
  · cases h
    exact ⟨rfl, rfl⟩
  split at h
  · cases h
    exact ⟨rfl, rfl⟩
  split at h
  · cases h
  · cases h
    exact ⟨rfl, rfl⟩

theorem checkMigrateComplete_config {g g' : GroupInfo} {down : UInt64 → Bool} {done : Bool}
    (h : g.checkMigrateComplete down = .ok (done, g')) :
    g'.config = g.config ∧ g'.availableServer = g.availableServer := by
  unfold checkMigrateComplete at h
  dsimp only at h
  split at h
  · cases h
    exact ⟨rfl, rfl⟩
  split at h
  · split at h
    · cases h
      exact ⟨rfl, rfl⟩
    · cases h
      exact ⟨rfl, rfl⟩
  split at h
  · cases h
  · cases h
    exact ⟨rfl, rfl⟩

theorem loadConfig_buildStrategy (g : GroupInfo) (config : GroupConfig) (changed : Bool) :
    (g.loadConfig config changed).config.buildStrategy = config.buildStrategy := by
  unfold loadConfig
  dsimp only
  split
  · rfl
  · rfl

theorem step_ne_error (h : s.Sound t) (hstrategy : s.1.config.buildStrategy = 1) {e : Event}
    (hproper : e.Proper t.serverBucketCount.toNat) (he : e.FirstKind) :
    s.step e ≠ .error .tableBuilder := by
  cases e with
  | loadConfig config changed => nofun
  | beginRebuild upnodes random own₁ own₂ =>
    dsimp only [step]
    split
    · nofun
    · exact beginRebuild_ne_error hstrategy he random own₁ own₂ _
  | endRebuild =>
    dsimp only [step]
    split
    · nofun
    · nofun
  | finishMigrate serverId serverVersion bucketId =>
    obtain ⟨g, hfinish, -⟩ := doFinishMigrate_sound h.group serverId serverVersion
      bucketId (by rw [h.shape.bucketCount]; exact hproper)
    dsimp only [step]
    rw [hfinish]
    nofun
  | checkMigrateComplete down =>
    obtain ⟨done, g, hcheck, -⟩ := checkMigrateComplete_sound h.group down
    dsimp only [step]
    rw [hcheck]
    nofun
  | hardCheckMigrateComplete => nofun
  | restart config changed => nofun

/-- What builder is configured only changes when a configuration is loaded. -/
theorem step_buildStrategy (hstrategy : s.1.config.buildStrategy = 1) {e : Event} (he : e.FirstKind)
    (hstep : s.step e = .ok s') : s'.1.config.buildStrategy = 1 := by
  cases e with
  | loadConfig config changed =>
    cases hstep
    exact (loadConfig_buildStrategy _ _ _).trans he
  | beginRebuild upnodes random own₁ own₂ =>
    dsimp only [step] at hstep
    split at hstep
    · cases hstep
      exact hstrategy
    · rw [beginRebuild_config hstep]
      exact hstrategy
  | endRebuild =>
    dsimp only [step] at hstep
    split at hstep
    · cases hstep
      exact hstrategy
    · cases hstep
      unfold endRebuild
      split
      · exact hstrategy
      · exact hstrategy
  | finishMigrate serverId serverVersion bucketId =>
    dsimp only [step] at hstep
    cases hfinish : s.1.doFinishMigrate serverId serverVersion bucketId with
    | error abort =>
      rw [hfinish] at hstep
      cases hstep
    | ok g =>
      rw [hfinish] at hstep
      cases hstep
      change g.config.buildStrategy = 1
      rw [(doFinishMigrate_config hfinish).1]
      exact hstrategy
  | checkMigrateComplete down =>
    dsimp only [step] at hstep
    cases hcheck : s.1.checkMigrateComplete down with
    | error abort =>
      rw [hcheck] at hstep
      cases hstep
    | ok result =>
      rw [hcheck] at hstep
      cases hstep
      change result.2.config.buildStrategy = 1
      rw [(checkMigrateComplete_config hcheck).1]
      exact hstrategy
  | hardCheckMigrateComplete =>
    cases hstep
    change s.1.hardCheckMigrateComplete.config.buildStrategy = 1
    unfold hardCheckMigrateComplete
    split
    · exact hstrategy
    · exact hstrategy
  | restart config changed =>
    cases hstep
    exact (loadConfig_buildStrategy _ _ _).trans he

theorem run_ok (h : s.Sound t) (hstrategy : s.1.config.buildStrategy = 1)
    (hevents : ∀ e ∈ events, e.Proper t.serverBucketCount.toNat)
    (hfirst : ∀ e ∈ events, e.FirstKind) :
    ∃ s', s.run events = .ok s' ∧ s'.Sound t ∧ s'.1.config.buildStrategy = 1 := by
  induction events generalizing s with
  | nil => exact ⟨s, rfl, h, hstrategy⟩
  | cons e events ih =>
    have hproper := hevents e List.mem_cons_self
    have he := hfirst e List.mem_cons_self
    obtain ⟨s', hstep, hsound⟩ := (step_sound h hproper).resolve_left
      (step_ne_error h hstrategy hproper he)
    unfold run
    rw [List.foldlM_cons, hstep]
    exact ih hsound (step_buildStrategy hstrategy he hstep)
      (fun e' he' => hevents e' (List.mem_cons_of_mem e he'))
      fun e' he' => hfirst e' (List.mem_cons_of_mem e he')

end GroupState

end Tair
