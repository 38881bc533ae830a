-- SUMMARY: Which keys can be read after a lazy clear: those last put in an earlier second cannot.
import NetworkEtc.Mdb.ReadYourWrite

/-!
# Lazy clear

`clear` notes the time for the area. An item counts as expired if its last put was in an
earlier second than that; a put in the same second, before the clear or after it, stays.
-/

namespace Mdb

open Library

namespace Store

/-- The reading with which a call puts the key, if it puts it. -/
def putTime (s : Store) (k : List UInt8) : StoreOp → Option UInt32
  | .put key value versionCare expired crrntTime evictTime =>
    if key.data = k ∧ (s.doPut key value versionCare expired crrntTime evictTime).any
        (fun r => r.1.1 = TAIR_RETURN_SUCCESS) then some crrntTime
    else none
  | .addCount key count initValue notNegative expired resultValue getTime crrntTime evictTime =>
    if key.data = k ∧ (s.doAddCount key count initValue notNegative expired resultValue getTime
        crrntTime evictTime).any (fun r => r.1.1 = TAIR_RETURN_SUCCESS) then some crrntTime
    else none
  | _ => none

/-- The reading of the last put of the key in a run; `last` is that of the last one before. -/
def lastPut (k : List UInt8) (last : Option UInt32) (s : Store) (ops : List StoreOp) :
    Option UInt32 :=
  gather step (fun s op last => (s.putTime k op).or last) last s ops

/-- A get of the key gives the value, and a lookup finds it. -/
def Finds (s : Store) (key value : DataEntry) (time : UInt32) (content : List UInt8) : Prop :=
  (∃ key' value' s', s.doGet key value time = some ((TAIR_RETURN_SUCCESS, key', value'), s') ∧
    value'.data = content) ∧ ∃ s', s.doLookup key time = some (true, s')

/-- Neither a get nor a lookup finds the key. -/
def Hides (s : Store) (key value : DataEntry) (time : UInt32) : Prop :=
  (∃ code key' value' s', s.doGet key value time = some ((code, key', value'), s') ∧
    code ≠ TAIR_RETURN_SUCCESS) ∧ ∃ s', s.doLookup key time = some (false, s')

variable {s s' s₁ : Store} {g g' : Ledger} {k content : List UInt8} {it : MdbItem}
  {key value : DataEntry} {time : UInt32} {last : Option UInt32} {ops ops₁ ops₂ : List StoreOp}
  {op : StoreOp}

/-! # The last put -/

theorem lastPut_cons (hstep : s.step op = some s') :
    lastPut k last s (op :: ops) = lastPut k ((s.putTime k op).or last) s' ops :=
  gather_cons hstep

theorem lastPut_fail (hstep : s.step op = none) : lastPut k last s (op :: ops) = last := by
  rw [lastPut, gather, hstep]

theorem lastPut_eq_or : lastPut k last s ops = (lastPut k none s ops).or last := by
  induction ops generalizing s last with
  | nil => simp [lastPut]
  | cons op ops ih =>
    cases hstep : s.step op with
    | none => simp [lastPut_fail hstep]
    | some s' =>
      rw [lastPut_cons hstep, lastPut_cons hstep, Option.or_none]
      calc lastPut k ((s.putTime k op).or last) s' ops
          = (lastPut k none s' ops).or ((s.putTime k op).or last) := ih
        _ = ((lastPut k none s' ops).or (s.putTime k op)).or last := (Option.or_assoc ..).symm
        _ = (lastPut k (s.putTime k op) s' ops).or last := by rw [← ih]

theorem putTime_mem {t : UInt32} (h : s.putTime k op = some t) : t ∈ op.readings := by
  cases op with
  | put key value versionCare expired crrntTime evictTime =>
    simp only [putTime, Option.ite_none_right_eq_some, Option.some.injEq] at h
    simp [StoreOp.readings, h.2]
  | addCount key count initValue notNegative expired resultValue getTime crrntTime evictTime =>
    simp only [putTime, Option.ite_none_right_eq_some, Option.some.injEq] at h
    simp [StoreOp.readings, h.2]
  | get => exact absurd h (by simp [putTime])
  | remove => exact absurd h (by simp [putTime])
  | lookup => exact absurd h (by simp [putTime])
  | clear => exact absurd h (by simp [putTime])
  | setAreaQuota => exact absurd h (by simp [putTime])
  | checkQuota => exact absurd h (by simp [putTime])

/-- The time of the last put has been read from the clock. -/
theorem lastPut_mem {t : UInt32} (h : lastPut k none s ops = some t) :
    t ∈ ops.flatMap StoreOp.readings := by
  induction ops generalizing s with
  | nil => exact absurd h (by simp [lastPut])
  | cons op ops ih =>
    rw [List.flatMap_cons, List.mem_append]
    cases hstep : s.step op with
    | none => exact absurd h (by simp [lastPut_fail hstep])
    | some s' =>
      rw [lastPut_cons hstep, lastPut_eq_or, Option.or_none, Option.or_eq_some_iff] at h
      rcases h with h | ⟨-, h⟩
      · exact Or.inr (ih h)
      · exact Or.inl (putTime_mem h)

/-! # The update time of an item -/

theorem nextCount_ne {rc : Int} {key oldValue : DataEntry} {count initValue resultValue : Int32}
    {notNegative : Bool} {code : Int} (h : (nextCount rc key oldValue count initValue notNegative
      resultValue).1 = some code) : code ≠ TAIR_RETURN_SUCCESS := by
  have hstart : ∀ {code}, startCount count initValue notNegative = some code →
      code ≠ TAIR_RETURN_SUCCESS := by
    intro code hcode
    unfold startCount at hcode
    split at hcode
    · rw [← Option.some.inj hcode]
      decide
    · split at hcode
      · rw [← Option.some.inj hcode]
        decide
      · exact absurd hcode (by simp)
  unfold nextCount at h
  split at h
  · split at h
    · split at h
      · split at h
        · next hcode => exact Option.some.inj h ▸ hstart hcode
        · exact absurd h (by simp)
      · simp only at h
        split at h
        · rw [← Option.some.inj h]
          decide
        · split at h
          · rw [← Option.some.inj h]
            decide
          · exact absurd h (by simp)
    · rw [← Option.some.inj h]
      decide
  · split at h
    · next hcode => exact Option.some.inj h ▸ hstart hcode
    · exact absurd h (by simp)

/-- What is under a key after a call has been put by it, or was there before. -/
theorem Settled.step_entry (h : s.Settled g) (hop : op.Admissible) (hstep : s.step op = some s')
    (hk : k ≠ []) (hentry : s'.entry k = some it) :
    s.putTime k op = some it.updateTime ∨ (s.putTime k op = none ∧ s.entry k = some it) := by
  have hleft : ∀ {s₁ : Store} {e : Option MdbItem}, s₁.entry k = e ∨ s₁.entry k = none →
      s₁.entry k = some it → e = some it := by
    rintro s₁ e (heq | hnone) hsome
    · exact heq.symm.trans hsome
    · exact absurd (hnone.symm.trans hsome) (by simp)
  have hlost : ∀ {g'}, Losses (s, g) (s', g') → s.entry k = some it :=
    fun hlosses => hleft (hlosses.entry h hk) hentry
  cases op with
  | put key value versionCare expired crrntTime evictTime =>
    obtain ⟨⟨⟨code, key'⟩, s₁⟩, hput, rfl⟩ := Option.map_eq_some_iff.mp hstep
    simp only [putTime, hput]
    rcases h.put_stored hop.1 hop.2 hput with ⟨hcode, rfl, -⟩ | ⟨rfl, slot, version, hstored⟩
    · exact Or.inr ⟨by simp [hcode], hentry⟩
    · rcases eq_or_ne key.data k with rfl | hne
      · have heq : _ = it := Option.some.inj (hstored.entry_self.symm.trans hentry)
        left
        rw [← heq]
        simp
        rfl
      · exact Or.inr ⟨by simp [hne], hleft (hstored.entry_ne k hk hne.symm) hentry⟩
  | get key value time =>
    obtain ⟨⟨r, s₁⟩, hget, rfl⟩ := Option.map_eq_some_iff.mp hstep
    obtain ⟨-, g₁, hlosses⟩ := h.doGet_losses hop hget
    exact Or.inr ⟨rfl, hlost hlosses⟩
  | remove key =>
    obtain ⟨⟨r, s₁⟩, hremove, rfl⟩ := Option.map_eq_some_iff.mp hstep
    obtain ⟨g₁, hlosses⟩ := h.doRemove_losses hop hremove
    exact Or.inr ⟨rfl, hlost hlosses⟩
  | addCount key count initValue notNegative expired resultValue getTime crrntTime evictTime =>
    obtain ⟨⟨⟨code, result, key''⟩, s₁⟩, hadd, rfl⟩ := Option.map_eq_some_iff.mp hstep
    simp only [putTime, hadd]
    obtain ⟨rc, key', oldValue, s₂, hget, hrest⟩ := doAddCount_cases hadd
    obtain ⟨hdata, g₂, hlosses⟩ := h.doGet_losses hop hget
    have hdata : key'.data = key.data := hdata
    have hs₂ := hlosses.settled h
    rcases hrest with ⟨code', hcode, heq, rfl⟩ | ⟨-, rc', key₃, hput, heq⟩
    · have hne : code ≠ TAIR_RETURN_SUCCESS := by
        rw [(Prod.mk.inj heq).1]
        exact nextCount_ne hcode
      exact Or.inr ⟨by simp [hne], hlost hlosses⟩
    · obtain rfl : code = rc' := (Prod.mk.inj heq).1
      have hkey' : key'.IsKey := by
        unfold DataEntry.IsKey
        rw [hdata]
        exact hop
      rcases hs₂.put_stored hkey' (isValue_countEntry _ count) hput with ⟨hcode, rfl, -⟩ |
        ⟨rfl, slot, version, hstored⟩
      · exact Or.inr ⟨by simp [hcode], hlost hlosses⟩
      · rcases eq_or_ne key.data k with rfl | hne
        · have hself := hstored.entry_self
          rw [hdata] at hself
          have heq : _ = it := Option.some.inj (hself.symm.trans hentry)
          left
          rw [← heq]
          simp
          rfl
        · have hbefore := hleft (hstored.entry_ne k hk (hdata ▸ hne.symm)) hentry
          exact Or.inr ⟨by simp [hne], hleft (hlosses.entry h hk) hbefore⟩
  | lookup key time =>
    obtain ⟨⟨r, s₁⟩, hlookup, rfl⟩ := Option.map_eq_some_iff.mp hstep
    obtain ⟨g₁, hlosses⟩ := h.doLookup_losses hop hlookup
    exact Or.inr ⟨rfl, hlost hlosses⟩
  | clear area time =>
    change s.clear area time = some s' at hstep
    unfold Store.clear at hstep
    split at hstep
    · rw [← Option.some.inj hstep] at hentry
      exact Or.inr ⟨rfl, hentry⟩
    · exact absurd hstep (by simp)
  | setAreaQuota area quota =>
    change s.setAreaQuota area quota = some s' at hstep
    unfold Store.setAreaQuota at hstep
    split at hstep
    · rw [← Option.some.inj hstep] at hentry
      exact Or.inr ⟨rfl, hentry⟩
    · exact absurd hstep (by simp)
  | checkQuota =>
    obtain ⟨g₁, hlosses⟩ := h.checkFrom_losses hstep
    exact Or.inr ⟨rfl, hlost hlosses⟩

/-- The update time of an item is the time of the last put of its key. -/
theorem Settled.updateTime_run (h : s.Settled g) (hops : ∀ op ∈ ops, op.Admissible)
    (hrun : s.run ops = some s') (hk : k ≠ [])
    (hlast : ∀ it, s.entry k = some it → last = some it.updateTime)
    (hentry : s'.entry k = some it) : lastPut k last s ops = some it.updateTime := by
  induction ops generalizing s g last with
  | nil =>
    rw [← Option.some.inj hrun] at hentry
    exact hlast it hentry
  | cons op ops ih =>
    obtain ⟨s₁, hstep, hrest⟩ := Option.bind_eq_some_iff.mp hrun
    have hop := hops op (List.mem_cons_self ..)
    obtain ⟨-, g₁, hmoves⟩ := h.step_moves hop hstep
    rw [lastPut_cons hstep]
    apply ih (hmoves.settled h) (fun op' hop' => hops op' (List.mem_cons_of_mem _ hop')) hrest
    intro it₁ hentry₁
    rcases h.step_entry hop hstep hk hentry₁ with hput | ⟨hnone, hbefore⟩
    · rw [hput]
      rfl
    · rw [hnone]
      exact hlast it₁ hbefore

/-! # What is found -/

section

variable (h : s.Settled g) (hkey : key.IsKey) (harea : key.area = keyArea key.data)
include h hkey harea

/-- A key is found that has an item which has not expired. -/
theorem Settled.finds_iff : s.Finds key value time content ↔
    ∃ it, s.entry key.data = some it ∧ s.isItemExpired it time = false ∧ it.value = content := by
  constructor
  · rintro ⟨⟨key', value', s', hget, hcontent⟩, -⟩
    rcases h.doGet value time hkey.ne_nil with ⟨hnone, -⟩ |
      ⟨x, hx, hxkey, ⟨-, s₁, -, hexpired, -⟩ | ⟨hfresh, ⟨-, s₁, hfound, -⟩ | ⟨hne, -⟩⟩⟩
    · rw [hnone] at hget
      exact absurd (congrArg (fun r => r.1.1) (Option.some.inj hget))
        (by change ¬ TAIR_RETURN_DATA_NOT_EXIST = TAIR_RETURN_SUCCESS; decide)
    · rw [hexpired] at hget
      exact absurd (congrArg (fun r => r.1.1) (Option.some.inj hget))
        (by change ¬ TAIR_RETURN_DATA_EXPIRED = TAIR_RETURN_SUCCESS; decide)
    · rw [hfound, Option.some.injEq, Prod.mk.injEq, Prod.mk.injEq, Prod.mk.injEq] at hget
      obtain ⟨⟨-, -, rfl⟩, -⟩ := hget
      exact ⟨_, h.entry_of hx hxkey, hfresh, hcontent⟩
    · exact absurd harea hne
  · rintro ⟨it, hentry, hfresh, rfl⟩
    obtain ⟨x, hx, hxkey, rfl⟩ := (h.entry_iff hkey.ne_nil).mp hentry
    refine ⟨(h.get_iff value time hkey.ne_nil harea hentry).mpr hfresh, ?_⟩
    rcases h.doLookup time hkey.ne_nil harea with ⟨-, hnone⟩ |
      ⟨y, hy, hykey, ⟨hexpired, -⟩ | ⟨-, hfound⟩⟩
    · exact absurd hxkey (hnone x hx)
    · obtain rfl := h.keys y x hy hx (hykey.trans hxkey.symm)
      exact absurd (hfresh.symm.trans hexpired) (by decide)
    · exact ⟨s, hfound⟩

/-- A key is not found that has no item, or one that has expired. -/
theorem Settled.hides (hall : ∀ it, s.entry key.data = some it → s.isItemExpired it time = true) :
    s.Hides key value time := by
  constructor
  · rcases h.doGet value time hkey.ne_nil with ⟨hnone, -⟩ |
      ⟨x, hx, hxkey, ⟨-, s₁, -, hexpired, -⟩ | ⟨hfresh, -⟩⟩
    · exact ⟨_, _, _, _, hnone, by decide⟩
    · exact ⟨_, _, _, _, hexpired, by decide⟩
    · have hexpired := hall _ (h.entry_of hx hxkey)
      exact absurd (hfresh.symm.trans hexpired) (by decide)
  · rcases h.doLookup time hkey.ne_nil harea with ⟨hnone, -⟩ |
      ⟨x, hx, hxkey, ⟨-, s₁, -, hexpired, -⟩ | ⟨hfresh, -⟩⟩
    · exact ⟨s, hnone⟩
    · exact ⟨s₁, hexpired⟩
    · have hexpired := hall _ (h.entry_of hx hxkey)
      exact absurd (hfresh.symm.trans hexpired) (by decide)

end

/-- The area of the item under a key is that of the key. -/
theorem Settled.area_entry (h : s.Settled g) (hk : k ≠ []) (hentry : s.entry k = some it) :
    it.area = keyArea k := by
  obtain ⟨x, hx, rfl, rfl⟩ := (h.entry_iff hk).mp hentry
  have hwhole := (h.whole x hx).body
  exact area_eq_keyArea hwhole

/-! # Clearing an area -/

variable {s₀ s₂ : Store} {param : MdbParam} {area : Nat} {T : UInt32}

theorem Settled.areaTimestamp_foldl (h : s.Settled g) (hops : ∀ op ∈ ops, op.Admissible)
    (hrun : s.run ops = some s') : s'.areaTimestamp = ops.foldl timesAfter s.areaTimestamp := by
  induction ops generalizing s g with
  | nil =>
    rw [← Option.some.inj hrun]
    rfl
  | cons op ops ih =>
    obtain ⟨s₁, hstep, hrest⟩ := Option.bind_eq_some_iff.mp hrun
    obtain ⟨htimes, g₁, hmoves⟩ := h.step_moves (hops op (List.mem_cons_self ..)) hstep
    rw [List.foldl_cons, ← htimes]
    exact ih (hmoves.settled h) (fun op' hop' => hops op' (List.mem_cons_of_mem _ hop')) hrest

/-- The time of an area after some calls is what it was, or has been read by them. -/
theorem foldl_timesAfter (times : Nat → UInt32) (k : Nat) :
    ops.foldl timesAfter times k = times k ∨
      ops.foldl timesAfter times k ∈ ops.flatMap StoreOp.readings := by
  induction ops generalizing times with
  | nil => exact Or.inl rfl
  | cons op ops ih =>
    rw [List.foldl_cons, List.flatMap_cons, List.mem_append]
    rcases ih (timesAfter times op) with hsame | hread
    · rw [hsame]
      cases op with
      | clear area time =>
        rw [timesAfter, Function.update_apply]
        split
        · exact Or.inr (Or.inl (List.mem_singleton_self time))
        · exact Or.inl rfl
      | put => exact Or.inl rfl
      | get => exact Or.inl rfl
      | remove => exact Or.inl rfl
      | addCount => exact Or.inl rfl
      | lookup => exact Or.inl rfl
      | setAreaQuota => exact Or.inl rfl
      | checkQuota => exact Or.inl rfl
    · exact Or.inr (Or.inr hread)

/-- Without a clear of the area its time stays. -/
theorem foldl_timesAfter_of_forall (times : Nat → UInt32)
    (hno : ∀ op ∈ ops, ∀ time, op ≠ .clear area time) :
    ops.foldl timesAfter times area = times area := by
  induction ops generalizing times with
  | nil => rfl
  | cons op ops ih =>
    rw [List.foldl_cons, ih _ fun op' hop' => hno op' (List.mem_cons_of_mem _ hop')]
    cases op with
    | clear area' time =>
      have hne : area ≠ area' := by
        rintro rfl
        exact hno _ (List.mem_cons_self ..) time rfl
      exact Function.update_of_ne hne ..
    | put => rfl
    | get => rfl
    | remove => rfl
    | addCount => rfl
    | lookup => rfl
    | setAreaQuota => rfl
    | checkQuota => rfl

/-- After `clear` of an area at `T`, a key of the area whose last put was in an earlier
second is not found until it is put again. A key of the area that is put again, or was put
in the second of the clear, is found as long as its item is in the store and its own time
has not come, until the area is cleared again. Of keys of other areas the same is found
after the clear as before it. -/
theorem clear_run (hinit : Store.init param = some s₀)
    (hops : ∀ op ∈ ops₁ ++ .clear area T :: ops₂, op.Admissible) (hrun₁ : s₀.run ops₁ = some s₁)
    (hclear : s₁.clear area T = some s₂) (hrun₂ : s₂.run ops₂ = some s)
    (hclock : InOrder (ops₁ ++ .clear area T :: (ops₂ ++ [.get key value time])))
    (hkey : key.IsKey) (harea : key.area = keyArea key.data) :
    (key.area = area → lastPut key.data none s₂ ops₂ = none →
      (∀ t, lastPut key.data none s₀ ops₁ = some t → t < T) → s.Hides key value time) ∧
    (key.area = area → (∀ op ∈ ops₂, ∀ t, op ≠ .clear area t) →
      (lastPut key.data none s₂ ops₂ ≠ none ∨ lastPut key.data none s₀ ops₁ = some T) →
        ∀ it, s.entry key.data = some it → it.exptime = 0 ∨ time ≤ it.exptime →
          s.Finds key value time it.value) ∧
    (key.area ≠ area → ∀ content,
      s₂.Finds key value time content ↔ s₁.Finds key value time content) := by
  have hops₁ : ∀ op ∈ ops₁, op.Admissible := fun op hop => hops op (List.mem_append_left _ hop)
  have hops₂ : ∀ op ∈ ops₂, op.Admissible :=
    fun op hop => hops op (List.mem_append_right _ (List.mem_cons_of_mem _ hop))
  have hs₂_eq : s₂ = { s₁ with areaTimestamp := Function.update s₁.areaTimestamp area T } := by
    unfold Store.clear at hclear
    split at hclear
    · exact (Option.some.inj hclear).symm
    · exact absurd hclear (by simp)
  obtain ⟨g₀, hempty⟩ := empty_init hinit
  obtain ⟨g₁, hmoves₁⟩ := hempty.settled.run_moves hops₁ hrun₁
  have hs₁ := hmoves₁.settled hempty.settled
  have hs₂ : s₂.Settled g₁ := by
    rw [hs₂_eq]
    exact hs₁.restat _ _
  obtain ⟨g, hmoves₂⟩ := hs₂.run_moves hops₂ hrun₂
  have hs := hmoves₂.settled hs₂
  -- the item of a key has the time of its last put
  have hnew : ∀ it, s₀.entry key.data = some it → none = some it.updateTime := by
    intro it hentry
    obtain ⟨x, hx, -⟩ := (hempty.settled.entry_iff hkey.ne_nil).mp hentry
    exact absurd hx (hempty.none_inUse x)
  have hlast₂ : ∀ it, s₂.entry key.data = some it →
      lastPut key.data none s₀ ops₁ = some it.updateTime := by
    intro it hentry
    rw [hs₂_eq] at hentry
    exact hempty.settled.updateTime_run hops₁ hrun₁ hkey.ne_nil hnew hentry
  have hlast : ∀ it, s.entry key.data = some it →
      (lastPut key.data none s₂ ops₂).or (lastPut key.data none s₀ ops₁) = some it.updateTime := by
    intro it hentry
    rw [← lastPut_eq_or]
    exact hs₂.updateTime_run hops₂ hrun₂ hkey.ne_nil hlast₂ hentry
  have htimes : s.areaTimestamp area = ops₂.foldl timesAfter s₂.areaTimestamp area :=
    congrFun (hs₂.areaTimestamp_foldl hops₂ hrun₂) area
  have hset : s₂.areaTimestamp area = T := by
    rw [hs₂_eq]
    exact Function.update_self ..
  have hlater : ∀ t ∈ ops₂.flatMap StoreOp.readings, T ≤ t := by
    intro t ht
    unfold InOrder at hclock
    rw [List.flatMap_append, List.flatMap_cons, List.flatMap_append] at hclock
    have hrest := (List.pairwise_append.mp hclock).2.1
    rw [StoreOp.readings, List.singleton_append] at hrest
    exact (List.pairwise_cons.mp hrest).1 t (List.mem_append_left _ ht)
  refine ⟨fun heq hnone hearlier => ?_, fun heq hno hput it hentry hown => ?_,
    fun hne content => ?_⟩
  · apply hs.hides hkey harea
    intro it hentry
    have hput := hlast it hentry
    rw [hnone, Option.none_or] at hput
    have hcleared : T ≤ s.areaTimestamp area := by
      rw [htimes]
      rcases foldl_timesAfter s₂.areaTimestamp area with hsame | hread
      · rw [hsame, hset]
        exact UInt32.le_refl T
      · exact hlater _ hread
    rw [isItemExpired_iff, hs.area_entry hkey.ne_nil hentry, ← harea, heq]
    exact Or.inr (UInt32.lt_of_lt_of_le (hearlier _ hput) hcleared)
  · rw [hs.finds_iff hkey harea]
    refine ⟨it, hentry, ?_, rfl⟩
    have hlast := hlast it hentry
    have hupdate : T ≤ it.updateTime := by
      cases hsince : lastPut key.data none s₂ ops₂ with
      | some t =>
        rw [hsince, Option.some_or, Option.some.injEq] at hlast
        exact hlast ▸ hlater t (lastPut_mem hsince)
      | none =>
        rw [hsince, Option.none_or, hput.resolve_left fun hsome => hsome hsince,
          Option.some.injEq] at hlast
        exact hlast ▸ UInt32.le_refl T
    rw [← Bool.not_eq_true, isItemExpired_iff, not_or, not_and_or, not_not, UInt32.not_lt,
      UInt32.not_lt, hs.area_entry hkey.ne_nil hentry, ← harea, heq, htimes,
      foldl_timesAfter_of_forall _ hno, hset]
    exact ⟨hown, hupdate⟩
  · rw [hs₂.finds_iff hkey harea, hs₁.finds_iff hkey harea]
    apply exists_congr
    intro it
    have hsame : s₂.entry key.data = s₁.entry key.data := by
      rw [hs₂_eq]
      rfl
    rw [hsame]
    apply and_congr_right
    intro hentry
    have hexpired : s₂.isItemExpired it time = s₁.isItemExpired it time := by
      have hother : s₂.areaTimestamp it.area = s₁.areaTimestamp it.area := by
        rw [hs₂_eq, hs₁.area_entry hkey.ne_nil hentry, ← harea]
        exact Function.update_of_ne hne ..
      unfold isItemExpired
      rw [hother]
    rw [hexpired]

/-- A key that was put a second before the clear. -/
theorem clear_secondLater : ∃ s₁ s₂, smallStore.run [.put (keyNo 1) (keyNo 10) false 0 1 1] =
    some s₁ ∧ s₁.clear 3 2 = some s₂ ∧ s₂.Hides (keyNo 1) .init 3 := by
  have hcalls : (smallStore.run [.put (keyNo 1) (keyNo 10) false 0 1 1]).any (fun s =>
      (s.clear 3 2).isSome) = true := by
    decide +kernel
  obtain ⟨s₁, hrun, hclear⟩ := (Option.any_eq_true ..).mp hcalls
  obtain ⟨s₂, hclear⟩ := Option.isSome_iff_exists.mp hclear
  have hlast : lastPut (keyNo 1).data none smallStore [.put (keyNo 1) (keyNo 10) false 0 1 1] =
      some 1 := by
    decide +kernel
  have hops : ∀ op ∈ [.put (keyNo 1) (keyNo 10) false 0 1 1] ++ StoreOp.clear 3 2 :: [],
      op.Admissible := by
    decide
  have hclock : InOrder ([.put (keyNo 1) (keyNo 10) false 0 1 1] ++
      .clear 3 2 :: ([] ++ [.get (keyNo 1) .init 3])) := by
    decide
  have hcleared := clear_run init_smallParam hops hrun hclear rfl hclock (by decide) rfl
  refine ⟨s₁, s₂, hrun, hclear, hcleared.1 rfl rfl fun t ht => ?_⟩
  rw [hlast] at ht
  rw [← Option.some.inj ht]
  decide

/-- A key that was put in the second of the clear is found after it. -/
theorem clear_sameSecond : Store.init smallParam = some smallStore ∧
    InOrder [.put (keyNo 1) (keyNo 10) false 0 1 1, .clear 3 1, .get (keyNo 1) .init 1] ∧
    (smallStore.run [.put (keyNo 1) (keyNo 10) false 0 1 1, .clear 3 1]).any (fun s =>
      (s.doGet (keyNo 1) .init 1).any (fun r =>
        r.1.1 = TAIR_RETURN_SUCCESS ∧ r.1.2.2.data = (keyNo 10).data) ∧
      (s.doLookup (keyNo 1) 1).any fun r => r.1) = true :=
  ⟨init_smallParam, by decide, by decide +kernel⟩

end Store

end Mdb
