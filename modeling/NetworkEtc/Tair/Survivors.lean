-- SUMMARY: After a rebuild clients are sent to a server that is up and had a copy of the bucket, if there is one.
import NetworkEtc.Tair.GroupMigration

/-!
# Where clients are sent

While a table is built the lock is not held, so buckets may be reported and configurations be loaded
meanwhile.
-/

namespace Tair

open Library ServerTable

namespace TableBuilder

variable {σ : Type} {b : TableBuilder σ} {source quick : HashTable} {line idx : Nat}

/-- The new master had a copy. -/
theorem QuickRow.follows (h : QuickRow b source quick idx) (hline : line < b.copyCount.toNat)
    (hlive : b.isNodeAvailble (source line idx) = true) :
    b.isNodeAvailble (quick 0 idx) = true ∧
      ∃ line' < b.copyCount.toNat, source line' idx = quick 0 idx := by
  have havail := h.available ⟨line, hline, hlive⟩
  refine ⟨havail, ?_⟩
  have hheld : 0 < held (Finset.range b.copyCount.toNat) (fun line => quick line idx) (quick 0 idx) :=
    held_pos (Finset.mem_range.mpr (Nat.zero_lt_of_lt hline))
  rw [h.copies _ havail] at hheld
  obtain ⟨line', hline', heq⟩ := exists_of_held_pos hheld
  exact ⟨line', Finset.mem_range.mp hline', heq⟩

end TableBuilder

/-- The quick table of a rebuild has masters that are up and had a copy. -/
def Pending.Follows (p : Pending) (t : ServerTable) (servers : List UInt64) : Prop :=
  ∀ i < t.serverBucketCount.toNat, ∀ line < t.copyCount.toNat,
    t.mHashTable (t.cell line i) ∈ servers → (p.quickTable 0 i).first ∈ servers ∧
      ∃ line' < t.copyCount.toNat, t.mHashTable (t.cell line' i) = (p.quickTable 0 i).first

namespace GroupInfo

open TableBuilder

variable {g g' : GroupInfo} {p : Pending}

theorem buildTables_follows {σ : Type} {b : TableBuilder σ} {servers : List UInt64}
    {rebuildTable : TableBuilder σ → HashTable → Bool →
      Option (BuildResult × TableBuilder σ × HashTable)}
    (hservers : b.availableServer = availableServers b.posMask servers) (hzero : 0 ∉ servers)
    (hbuckets : b.bucketCount = g.serverTable.serverBucketCount)
    (hcopies : b.copyCount = g.serverTable.copyCount)
    (hmigrate : g.config.needMigrate = true) (hcopy : 1 < g.serverTable.copyCount)
    (h : g.buildTables false b rebuildTable = .ok (g', some p)) :
    g' = g ∧ p.firstRun = false ∧ p.Follows g.serverTable servers := by
  unfold buildTables at h
  dsimp only at h
  have hcond : g.config.needMigrate = true ∧ 1 < g.serverTable.copyCount ∧ (false : Bool) = false :=
    ⟨hmigrate, hcopy, rfl⟩
  rw [if_pos hcond] at h
  split at h
  · cases h
  next hok =>
  split at h
  · cases h
  cases h
  refine ⟨rfl, rfl, fun i hi line hline hlive => ?_⟩
  have hrow := (buildQuickTable_rows (Bool.not_eq_false _ ▸ hok)).2 i (by rw [hbuckets]; exact hi)
  have hload : ∀ line < g.serverTable.copyCount.toNat,
      b.loadHashTable g.serverTable.mHashTable line i =
        ⟨g.serverTable.mHashTable (g.serverTable.cell line i),
          (g.serverTable.mHashTable (g.serverTable.cell line i) &&& b.posMask).toUInt32⟩ := by
    intro line hline
    unfold loadHashTable
    rw [hcopies, hbuckets, if_pos ⟨hline, hi⟩]
    rfl
  rw [← hcopies] at hline
  obtain ⟨havail, line', hline', heq⟩ := hrow.follows hline (by
    rw [hload line (hcopies ▸ hline), TableBuilder.isNodeAvailble_iff, hservers]
    exact ⟨fun hnone => hzero (hnone ▸ hlive), mem_availableServers hlive⟩)
  rw [hcopies] at hline'
  rw [isNodeAvailble_iff, hservers] at havail
  refine ⟨((availableServers_spec b.posMask servers).2 _ havail.2).1, line', hline', ?_⟩
  dsimp only
  rw [← heq, hload line' hline']

theorem beginRebuild_follows {upnodes : List UInt64} (hzero : 0 ∉ upnodes) {random : Nat → Nat}
    {own₁ : TableBuilder1} {own₂ : TableBuilder2} (hmigrate : g.config.needMigrate = true)
    (hcopy : 1 < g.serverTable.copyCount) (hfirst : g.serverTable.firstRun = false)
    (h : g.beginRebuild upnodes random own₁ own₂ = .ok (g', some p)) :
    g' = { g with availableServer := upnodes } ∧ p.firstRun = false ∧
      p.Follows g.serverTable upnodes := by
  unfold beginRebuild at h
  dsimp only at h
  rw [hfirst] at h
  split at h
  · cases h
  generalize (if g.config.buildStrategy = 3 then
    selectBuildStrategy { g with availableServer := upnodes } upnodes
    else g.config.buildStrategy) = strategy at h
  split at h
  · refine buildTables_follows (g := { g with availableServer := upnodes }) ?_ hzero ?_ ?_ hmigrate
      hcopy h
    · rfl
    · rfl
    · rfl
  split at h
  · refine buildTables_follows (g := { g with availableServer := upnodes }) ?_ hzero ?_ ?_ hmigrate
      hcopy h
    · rfl
    · rfl
    · rfl
  · cases h

end GroupInfo

/-- Neither the end of a rebuild nor of the process. -/
def Event.Meanwhile : Event → Prop
  | .endRebuild => False
  | .restart _ _ => False
  | _ => True

namespace GroupState

open GroupInfo

variable {s s' : GroupState} {t : ServerTable} {events mid : List Event} {config : GroupConfig}
  {changed : Bool} {p : Pending}

/-- A step while a table is built. -/
theorem step_meanwhile {e : Event} (he : e.Meanwhile) (hp : s.2 = some p)
    (hstep : s.step e = .ok s') :
    s'.2 = some p ∧ s'.1.availableServer = s.1.availableServer := by
  cases e with
  | loadConfig config changed =>
    cases hstep
    refine ⟨hp, ?_⟩
    change (s.1.loadConfig config changed).availableServer = _
    unfold loadConfig
    dsimp only
    split
    · rfl
    · rfl
  | beginRebuild upnodes random own₁ own₂ =>
    dsimp only [step] at hstep
    rw [if_pos (by rw [hp]; rfl)] at hstep
    cases hstep
    exact ⟨hp, rfl⟩
  | endRebuild => exact he.elim
  | finishMigrate serverId serverVersion bucketId =>
    dsimp only [step] at hstep
    cases hfinish : s.1.doFinishMigrate serverId serverVersion bucketId with
    | error abort =>
      rw [hfinish] at hstep
      cases hstep
    | ok g =>
      rw [hfinish] at hstep
      cases hstep
      exact ⟨hp, (doFinishMigrate_config hfinish).2⟩
  | checkMigrateComplete down =>
    dsimp only [step] at hstep
    cases hcheck : s.1.checkMigrateComplete down with
    | error abort =>
      rw [hcheck] at hstep
      cases hstep
    | ok result =>
      rw [hcheck] at hstep
      cases hstep
      exact ⟨hp, (checkMigrateComplete_config hcheck).2⟩
  | hardCheckMigrateComplete =>
    cases hstep
    refine ⟨hp, ?_⟩
    change s.1.hardCheckMigrateComplete.availableServer = _
    unfold hardCheckMigrateComplete
    split
    · rfl
    · rfl
  | restart config changed => exact he.elim

theorem run_meanwhile (hmid : ∀ e ∈ mid, e.Meanwhile) (hp : s.2 = some p)
    (hrun : s.run mid = .ok s') : s'.2 = some p ∧ s'.1.availableServer = s.1.availableServer := by
  induction mid generalizing s with
  | nil =>
    cases hrun
    exact ⟨hp, rfl⟩
  | cons e mid ih =>
    unfold run at hrun
    rw [List.foldlM_cons] at hrun
    cases hstep : s.step e with
    | error abort =>
      rw [hstep] at hrun
      cases hrun
    | ok s₁ =>
      rw [hstep] at hrun
      obtain ⟨hp₁, havail₁⟩ := step_meanwhile (hmid e List.mem_cons_self) hp hstep
      obtain ⟨hp', havail⟩ := ih (fun e' he' => hmid e' (List.mem_cons_of_mem e he')) hp₁ hrun
      exact ⟨hp', havail.trans havail₁⟩

/-- Whatever happens while a table is built: if a copy of a bucket is left, clients are sent to one. -/
theorem rebuild_follows_copies (ht : t.Fresh)
    (hevents : ∀ e ∈ events, e.Proper t.serverBucketCount.toNat)
    (hrun : run (.start t config changed, none) events = .ok s)
    (hfirst : s.1.serverTable.firstRun = false) (hcopies : 1 < t.copyCount)
    {upnodes : List UInt64} (hzero : 0 ∉ upnodes) {random : Nat → Nat} {own₁ : TableBuilder1}
    {own₂ : TableBuilder2} {g : GroupInfo}
    (hbegin : s.1.beginRebuild upnodes random own₁ own₂ = .ok (g, some p))
    (hok : p.result ≠ .buildError)
    (hmid : ∀ e ∈ mid, e.Proper t.serverBucketCount.toNat ∧ e.Meanwhile)
    (hend : run (g, some p) (mid ++ [.endRebuild]) = .ok s') {i line : Nat}
    (hi : i < t.serverBucketCount.toNat) (hline : line < t.copyCount.toNat)
    (hup : s.1.serverTable.mHashTable (t.cell line i) ∈ upnodes) :
    s'.1.serverTable.hashTable i ∈ upnodes ∧ ∃ line' < t.copyCount.toNat,
      s.1.serverTable.mHashTable (t.cell line' i) = s'.1.serverTable.hashTable i := by
  have hsound := sound_of_run ht hevents hrun
  have hcopies' : 1 < s.1.serverTable.copyCount := by rwa [hsound.shape.copyCount]
  obtain ⟨hg, hfirst', hfollows⟩ := beginRebuild_follows hzero
    (hsound.group.migrates hcopies') hcopies' hfirst hbegin
  obtain ⟨hmaster, line', hline', hcopy⟩ := hfollows i (by rwa [hsound.shape.bucketCount]) line
    (by rwa [hsound.shape.copyCount]) (by rwa [hsound.shape.cell])
  -- up to the end of it
  have hbegun : GroupState.Sound (g, some p) t := by
    obtain ⟨s₁, hs₁, hsound₁⟩ := (beginRebuild_sound hsound.group hzero random own₁ own₂).resolve_left
      (by rw [hbegin]; nofun)
    rw [hbegin] at hs₁
    cases hs₁
    exact ⟨hsound₁.group, hsound.shape.trans hsound₁.shape, hsound₁.pending⟩
  unfold run at hend
  rw [List.foldlM_append] at hend
  obtain ⟨s₂, hrun₂, hsound₂⟩ : ∃ s₂, run (g, some p) mid = .ok s₂ ∧ s₂.Sound t := by
    rcases run_sound hbegun (fun e he => (hmid e he).1) with habort | hdone
    · unfold run at habort
      rw [habort] at hend
      cases hend
    · exact hdone
  obtain ⟨hp₂, havail⟩ := run_meanwhile (fun e he => (hmid e he).2) rfl hrun₂
  unfold run at hrun₂
  rw [hrun₂] at hend
  obtain ⟨g₂, pending⟩ := s₂
  cases hp₂
  cases hend
  have hwritten : (g₂.endRebuild p).serverTable.hashTable = (g₂.writeTables p).hashTable := by
    unfold endRebuild
    rw [if_neg hok]
    rfl
  have hshape := hsound₂.shape
  dsimp only at havail hshape ⊢
  have hclient : (g₂.endRebuild p).serverTable.hashTable i = (p.quickTable 0 i).first := by
    rw [hwritten]
    refine writeTables_hashTable hsound₂.group.table.copy
      (hsound₂.group.migrates (by rwa [hshape.copyCount])) hfirst' (by rwa [hshape.bucketCount]) ?_
    rw [havail, hg]
    exact hmaster
  rw [hclient]
  refine ⟨hmaster, line', by rwa [← hsound.shape.copyCount], ?_⟩
  rw [← hsound.shape.cell]
  exact hcopy

def oneBucket : ServerTable := { noTable with serverBucketCount := 1 }

theorem ok_of_toOption {e : Except Abort GroupState} (h : e.toOption = some s) : e = .ok s := by
  cases e with
  | error abort => cases h
  | ok s₁ => exact congrArg Except.ok (Option.some.inj h)

/-- Server 6 is replaced by server 7, and the configuration is loaded meanwhile. -/
theorem rebuild_follows_copies_replaced : ∃ s g p s',
    run (.start oneBucket evenly true, none) [rebuildWith [5, 6], .endRebuild] = .ok s ∧
    s.step (rebuildWith [5, 7]) = .ok (g, some p) ∧
    run (g, some p) [.loadConfig evenly false, .endRebuild] = .ok s' ∧
    s'.1.serverTable.hashTable 0 ∈ [5, 7] := by
  have hruns : ((run (.start oneBucket evenly true, none)
      [rebuildWith [5, 6], .endRebuild]).toOption.bind fun s =>
        (s.step (rebuildWith [5, 7])).toOption.bind fun s' => s'.2.map fun p =>
          decide (s.2.isSome = false ∧ s.1.serverTable.firstRun = false ∧
            s.1.serverTable.mHashTable (oneBucket.cell 1 0) ∈ [5, 7] ∧ p.result = .buildOk)) =
      some true := by
    decide +kernel
  obtain ⟨s, hrun, hruns⟩ := Option.bind_eq_some_iff.mp hruns
  obtain ⟨⟨g, pending⟩, hstep, hruns⟩ := Option.bind_eq_some_iff.mp hruns
  obtain ⟨p, hp, hdecide⟩ := Option.map_eq_some_iff.mp hruns
  obtain ⟨hidle, hfirst, hup, hresult⟩ := of_decide_eq_true hdecide
  cases hp
  replace hrun := ok_of_toOption hrun
  replace hstep := ok_of_toOption hstep
  have hbegin := hstep
  unfold rebuildWith at hbegin
  dsimp only [step] at hbegin
  rw [if_neg (by rw [hidle]; exact Bool.false_ne_true)] at hbegin
  have hend : run (g, some p) ([.loadConfig evenly false] ++ [.endRebuild]) =
      .ok ((g.loadConfig evenly false).endRebuild p, none) := rfl
  have hfresh : oneBucket.Fresh := ⟨by decide, fun _ _ => ⟨rfl, rfl, rfl⟩, Or.inl rfl⟩
  refine ⟨s, g, p, _, hrun, hstep, hend, ?_⟩
  refine (rebuild_follows_copies hfresh ?_ hrun hfirst (by decide) (by decide) hbegin ?_ ?_ hend
    (by decide) (by decide) hup).1
  · intro e he
    simp only [List.mem_cons, List.not_mem_nil, or_false] at he
    rcases he with rfl | rfl
    · exact (by decide : (0 : UInt64) ∉ [5, 6])
    · trivial
  · rw [hresult]
    nofun
  · intro e he
    rw [List.mem_singleton.mp he]
    exact ⟨trivial, trivial⟩

end GroupState

end Tair
