-- SUMMARY: How long the poller waits: the time until the first timer, and when that is not too long.
import NetworkEtc.Netfram.TimerTree

/-!
# `CTimer::Find` and the timeout of `CPoll::Poll`

`Find` has one value for two things: no event is armed, and the first event is due. `Poll`
takes both for the first and waits for the longest time it may. The time is an `int` for
`epoll_wait`, which waits for ever if it is negative.
-/

namespace Netfram

namespace TreeTimer

variable {ε : Type} [DecidableEq ε]

/-- `(uint32_t)MINA_TIMER_INFINITE` -/
def infinite : UInt32 := 4294967295

/-- What is left until the key, as the `int` that `Find` keeps. -/
def distance (t : TreeTimer ε) (apoEvent : ε) : Int32 :=
  (t.mtKey apoEvent - t.moTime.msec).toUInt32.toInt32

/-- `CTimer::Find` -/
def find (fuel : Nat) (t : TreeTimer ε) : Option UInt32 :=
  if t.moTimerHolder.empty then some infinite
  else do
    let lpoEvent ← t.moTimerHolder.seekToFirst fuel
    if lpoEvent ≠ t.moTimerHolder.moSentinel then
      return if 0 < t.distance lpoEvent then (t.distance lpoEvent).toUInt32 else infinite
    else return infinite

/-- What `CPoll::Poll` makes of it, as `epoll_wait` gets it. -/
def pollDelay (fuel : Nat) (muMaxDelay : UInt32) (t : TreeTimer ε) : Option Int32 := do
  let luTimer ← t.find fuel
  let luTimer := if luTimer = infinite ∨ muMaxDelay < luTimer then muMaxDelay else luTimer
  return luTimer.toInt32

/-- The milliseconds until an event is due; none are left of one that is. -/
def timeLeft (t : TreeTimer ε) (e : ε) : Nat := (t.mtKey e).toNat - t.moTime.msec.toNat

/-- `Poll` waits, and not longer than until any armed event is due. -/
def WakesInTime (fuel : Nat) (muMaxDelay : UInt32) (t : TreeTimer ε) : Prop :=
  ∃ delay, t.pollDelay fuel muMaxDelay = some delay ∧
    ∀ e, t.Armed e → 0 ≤ delay.toInt ∧ delay.toInt ≤ t.timeLeft e

/-- The event is the first of the tree's, from left to right. -/
def IsFirst (t : TreeTimer ε) (first : ε) : Prop := ∃ L, t.moTimerHolder.Stands (first :: L)

/-- No event is armed, or the longest delay is an `int` and no armed event is due before it, or
the time left of the first event of the tree, cut to 32 bits, is a positive `int`, and no armed
event is due before that. -/
def DelayFits (muMaxDelay : UInt32) (t : TreeTimer ε) : Prop :=
  (∀ e, ¬ t.Armed e) ∨
  (muMaxDelay.toNat < 2 ^ 31 ∧ ∀ e, t.Armed e → muMaxDelay.toNat ≤ t.timeLeft e) ∨
  ∃ first, t.IsFirst first ∧
    (0 < t.timeLeft first % 2 ^ 32 ∧ t.timeLeft first % 2 ^ 32 < 2 ^ 31) ∧
    ∀ e, t.Armed e → t.timeLeft first % 2 ^ 32 ≤ t.timeLeft e

variable {t : TreeTimer ε} {L : List ε} {e : ε} {fuel : Nat} {muMaxDelay : UInt32}

/-! ## One poll -/

/-- A positive `int` as a 32-bit value. -/
theorem toNat_toUInt32 {i : Int32} (h : 0 < i) :
    (i.toUInt32.toNat : Int) = i.toInt ∧ i.toUInt32.toNat < 2 ^ 31 := by
  have hpos : 0 < i.toInt := by
    rw [Int32.lt_iff_toInt_lt] at h
    simpa using h
  have hback := toInt_toInt32 i.toUInt32
  have hself : i.toUInt32.toInt32 = i := rfl
  have hlt := i.toUInt32.toNat_lt
  rw [hself] at hback
  split at hback
  · omega
  · omega

theorem Holds.find (h : t.Holds (e :: L)) (hfuel : L.length < fuel) : t.find fuel =
    some (if 0 < t.distance e then (t.distance e).toUInt32 else infinite) := by
  have hempty : ¬ t.moTimerHolder.empty = true := by
    rw [h.stands.empty_iff]
    simp
  have hvalid : e ≠ t.moTimerHolder.moSentinel := by
    rintro rfl
    exact h.stands.sentinel_notMem List.mem_cons_self
  rw [TreeTimer.find, if_neg hempty, h.stands.seekToFirst hfuel, Option.bind_eq_bind,
    Option.bind_some, if_pos hvalid]
  rfl

/-- The delay where an event is armed: that until the first, unless it is longer than the
longest, or the longest. -/
theorem Holds.pollDelay (h : t.Holds (e :: L)) (hfuel : L.length < fuel) (muMaxDelay : UInt32) :
    t.pollDelay fuel muMaxDelay = some
      (if 0 < t.distance e ∧ (t.distance e).toInt ≤ muMaxDelay.toNat then t.distance e
        else muMaxDelay.toInt32) := by
  rw [TreeTimer.pollDelay, h.find hfuel, Option.bind_eq_bind, Option.bind_some]
  by_cases hpos : 0 < t.distance e
  · obtain ⟨hnat, hlt⟩ := toNat_toUInt32 hpos
    have hfinite : (t.distance e).toUInt32 ≠ infinite := by
      intro heq
      rw [heq] at hlt
      exact absurd hlt (by decide)
    have hiff : muMaxDelay < (t.distance e).toUInt32 ↔
        ¬ (t.distance e).toInt ≤ muMaxDelay.toNat := by
      rw [UInt32.lt_iff_toNat_lt, ← hnat]
      omega
    rw [if_pos hpos]
    by_cases hle : (t.distance e).toInt ≤ muMaxDelay.toNat
    · have hshort : ¬ ((t.distance e).toUInt32 = infinite ∨ muMaxDelay < (t.distance e).toUInt32) :=
        fun hor => hor.elim hfinite fun hlt => hiff.mp hlt hle
      rw [if_neg hshort, if_pos ⟨hpos, hle⟩]
      rfl
    · have hlong : (t.distance e).toUInt32 = infinite ∨ muMaxDelay < (t.distance e).toUInt32 :=
        .inr (hiff.mpr hle)
      rw [if_pos hlong, if_neg fun hand => hle hand.2]
      rfl
  · rw [if_neg hpos, if_pos (.inl rfl), if_neg fun hand => hpos hand.1]
    rfl

omit [DecidableEq ε] in
/-- What `Find` keeps of the time until an event that is not due. -/
theorem distance_of_left (hleft : 0 < t.timeLeft e) :
    (0 < t.distance e ↔ 0 < t.timeLeft e % 2 ^ 32 ∧ t.timeLeft e % 2 ^ 32 < 2 ^ 31) ∧
    (0 < t.distance e → (t.distance e).toInt = (t.timeLeft e % 2 ^ 32 : Nat)) := by
  have hkey := (t.mtKey e).toNat_lt
  have hcut : (t.mtKey e - t.moTime.msec).toUInt32.toNat = t.timeLeft e % 2 ^ 32 := by
    rw [UInt64.toNat_toUInt32, UInt64.toNat_sub]
    rw [timeLeft] at hleft ⊢
    omega
  have hint := toInt_toInt32 (t.mtKey e - t.moTime.msec).toUInt32
  have hpos : 0 < t.distance e ↔ 0 < (t.distance e).toInt := by
    rw [Int32.lt_iff_toInt_lt]
    rfl
  rw [hcut] at hint
  rw [hpos, distance, hint]
  split
  · omega
  · omega

theorem Holds.isFirst_iff {first : ε} (h : t.Holds (e :: L)) : t.IsFirst first ↔ first = e := by
  constructor
  · rintro ⟨L', hstands⟩
    have hseek := hstands.seekToFirst (Nat.lt_succ_of_le (Nat.le_add_left L'.length L.length))
    have hfuel := Nat.lt_succ_of_le (Nat.le_add_right L.length L'.length)
    rw [h.stands.seekToFirst hfuel, Option.some_inj] at hseek
    exact hseek.symm
  · rintro rfl
    exact ⟨L, h.stands⟩

/-- `Poll` wakes in time if and only if the delay fits. -/
theorem Holds.wakesInTime_iff (h : t.Holds L) (hfuel : L.length < fuel) :
    WakesInTime fuel muMaxDelay t ↔ DelayFits muMaxDelay t := by
  cases L with
  | nil =>
    have hnone : ∀ e, ¬ t.Armed e := by
      intro e
      rw [h.armed_iff]
      exact List.not_mem_nil
    have hempty := h.stands.empty_iff.mpr rfl
    refine iff_of_true ⟨muMaxDelay.toInt32, ?_, fun e he => absurd he (hnone e)⟩ (.inl hnone)
    rw [TreeTimer.pollDelay, TreeTimer.find, if_pos hempty]
    rfl
  | cons first T =>
    have hlen : T.length < fuel := Nat.lt_of_succ_lt hfuel
    have hfirst : t.Armed first := h.armed_iff.mpr List.mem_cons_self
    have hmax := toInt_toInt32 muMaxDelay
    rw [WakesInTime, h.pollDelay hlen]
    constructor
    · intro hwakes
      obtain ⟨delay, hdelay, hin⟩ := hwakes
      cases hdelay
      split at hin
      · -- the time until the first event, which is then not due
        rename_i hshort
        have hpos := (toNat_toUInt32 hshort.1).1
        have hself := (hin first hfirst).2
        have hleft : 0 < t.timeLeft first := by
          have hnonzero := Int32.lt_iff_toInt_lt.mp hshort.1
          rw [Int32.toInt_zero] at hnonzero
          omega
        obtain ⟨hiff, heq⟩ := distance_of_left hleft
        refine .inr (.inr ⟨first, h.isFirst_iff.mpr rfl, hiff.mp hshort.1, fun e he => ?_⟩)
        have hle := (hin e he).2
        rw [heq hshort.1] at hle
        exact Int.ofNat_le.mp hle
      · -- the longest delay, which is an `int`
        have hlow := (hin first hfirst).1
        have hlt : muMaxDelay.toNat < 2 ^ 31 := by
          have hnat := muMaxDelay.toNat_lt
          rw [hmax] at hlow
          split at hlow
          · assumption
          · omega
        rw [if_pos hlt] at hmax
        rw [hmax] at hin
        refine .inr (.inl ⟨hlt, fun e he => ?_⟩)
        exact Int.ofNat_le.mp (hin e he).2
    · intro hfits
      refine ⟨_, rfl, fun e he => ?_⟩
      cases hfits with
      | inl hnone => exact absurd he (hnone e)
      | inr hfits =>
        cases hfits with
        | inl hlongest =>
          obtain ⟨hlt, hlongest⟩ := hlongest
          have hle := hlongest e he
          rw [if_pos hlt] at hmax
          split
          · rename_i hshort
            obtain ⟨hnat, -⟩ := toNat_toUInt32 hshort.1
            have hshort := hshort.2
            omega
          · omega
        | inr hnear =>
          obtain ⟨first', hisFirst, hcut, hnear⟩ := hnear
          rw [h.isFirst_iff] at hisFirst
          subst hisFirst
          have hle := hnear e he
          have hleft : 0 < t.timeLeft first' := Nat.lt_of_lt_of_le hcut.1 (Nat.mod_le _ _)
          obtain ⟨hiff, heq⟩ := distance_of_left hleft
          have hpos := hiff.mpr hcut
          have heq := heq hpos
          split
          · omega
          · rename_i hlong
            have hlt : muMaxDelay.toNat < (t.distance first').toInt :=
              not_le.mp fun hle => hlong ⟨hpos, hle⟩
            rw [if_pos (by omega)] at hmax
            omega

/-! ## Histories -/

/-- A history may also add events that are armed. -/
theorem Holds.runAny {ops : List (Op ε)} (h : t.Holds L)
    (hops : ∀ e auTime, .add e auTime ∈ ops → e ≠ t.moTimerHolder.moSentinel)
    (hfuel : L.length + ops.length < fuel) :
    ∃ t' L', t.run fuel ops = some t' ∧ t'.Holds L' ∧ L'.length < fuel := by
  induction ops generalizing t L with
  | nil => exact ⟨t, L, rfl, h, hfuel⟩
  | cons op ops ih =>
    simp only [List.length_cons] at hfuel
    have hop : ∀ e auTime, op = .add e auTime → e ≠ t.moTimerHolder.moSentinel := by
      intro e auTime heq
      exact hops e auTime (heq ▸ List.mem_cons_self)
    have hlt : L.length < fuel := by omega
    obtain ⟨t₁, L₁, hstep, h₁, hlen, hsent, -⟩ := h.stepAny hop hlt
    have hops₁ : ∀ e auTime, .add e auTime ∈ ops → e ≠ t₁.moTimerHolder.moSentinel := by
      intro e auTime he
      rw [hsent]
      exact hops e auTime (List.mem_cons_of_mem op he)
    obtain ⟨t', L', hrun, hrest⟩ := ih h₁ hops₁ (by omega)
    refine ⟨t', L', ?_, hrest⟩
    rw [TreeTimer.run, hstep, Option.bind_some, hrun]

/-- After every history of additions, expiries and updates of the clock, `Poll` wakes in time
if and only if the delay fits. -/
theorem wakesInTime_run_iff (mtKey : ε → UInt64) (child : Library.Side → ε → Option ε)
    (mpoParent : ε → Option ε) (mcColor : ε → Bool) (moSentinel : ε) (now : CTimeValue)
    (ops : List (Op ε)) (fuel : Nat) (muMaxDelay : UInt32)
    (hops : ∀ e auTime, .add e auTime ∈ ops → e ≠ moSentinel) (hfuel : ops.length < fuel) :
    ∃ t, (init mtKey child mpoParent mcColor moSentinel now).run fuel ops = some t ∧
      (WakesInTime fuel muMaxDelay t ↔ DelayFits muMaxDelay t) := by
  have hinit : (init mtKey child mpoParent mcColor moSentinel now).Holds [] :=
    ⟨CRBTree.stands_init .., by simp [init]⟩
  obtain ⟨t, L, hrun, hholds, hlen⟩ := hinit.runAny hops (by simpa using hfuel)
  exact ⟨t, hrun, hholds.wakesInTime_iff hlen⟩

/-- An event is armed for the twentieth of a second. -/
def armed : List (Op Nat) := [.add 1 50]

/-- The twentieth of a second passes. -/
def passed : List (Op Nat) := armed ++ [.update (CTimeValue.ofSec 2)]

theorem armed_names : ∀ e auTime, Op.add e auTime ∈ armed → e ≠ 0 := by
  simp [armed]

theorem passed_names : ∀ e auTime, Op.add e auTime ∈ passed → e ≠ 0 := by
  simp [passed, armed]

theorem admissible_passed : Admissible 3 fresh passed :=
  ⟨⟨rfl, by decide⟩, fun _ _ => ⟨trivial, fun _ _ => trivial⟩⟩

theorem admissible_armed : Admissible 3 fresh armed := ⟨⟨rfl, by decide⟩, fun _ _ => trivial⟩

/-- The event of these histories is the only one that is armed. -/
theorem armed_iff_one {ops : List (Op Nat)} {t : TreeTimer Nat} (hadm : Admissible 3 fresh ops)
    (hlen : ops.length < 3) (hrun : fresh.run 3 ops = some t)
    (hon : (fresh.run 3 ops).map TreeTimer.timerOn = some (Function.update (fun _ => false) 1 true))
    (e : Nat) : t.Armed e ↔ e = 1 := by
  rw [hrun, Option.map_some, Option.some_inj] at hon
  rw [armed_iff_timerOn hadm hlen hrun, hon, Function.update_apply]
  simp

/-- `Poll` waits the longest delay for an event that is overdue. -/
theorem overdue_passed {t : TreeTimer Nat} (hrun : fresh.run 3 passed = some t) :
    ¬ WakesInTime 3 600 t := by
  have hleft : (fresh.run 3 passed).map (fun t => t.timeLeft 1) = some 0 := by decide
  have hpoll : (fresh.run 3 passed).bind (fun t => t.pollDelay 3 600) = some 600 := by decide
  have harmed := (armed_iff_one admissible_passed (by decide) hrun rfl 1).mpr rfl
  rw [hrun] at hleft hpoll
  rintro ⟨delay, hdelay, hin⟩
  rw [Option.bind_some, hdelay, Option.some_inj] at hpoll
  rw [Option.map_some, Option.some_inj] at hleft
  have hlate := (hin 1 harmed).2
  rw [hleft, hpoll] at hlate
  exact absurd hlate (by decide)

/-- `Poll` waits for the twentieth of a second that is left. -/
theorem ahead_armed {t : TreeTimer Nat} (hrun : fresh.run 3 armed = some t) :
    WakesInTime 3 600 t := by
  have hleft : (fresh.run 3 armed).map (fun t => t.timeLeft 1) = some 50 := by decide
  have hpoll : (fresh.run 3 armed).bind (fun t => t.pollDelay 3 600) = some 50 := by decide
  rw [hrun] at hleft hpoll
  rw [Option.map_some, Option.some_inj] at hleft
  refine ⟨50, hpoll, fun e he => ?_⟩
  rw [armed_iff_one admissible_armed (by decide) hrun rfl] at he
  subst he
  rw [hleft]
  decide

theorem wakesInTime_passed :
    (∃ t, fresh.run 3 armed = some t ∧ WakesInTime 3 600 t ∧ DelayFits 600 t) ∧
    ∃ t, fresh.run 3 passed = some t ∧ ¬ WakesInTime 3 600 t ∧ ¬ DelayFits 600 t := by
  obtain ⟨t, hrun, hiff⟩ := wakesInTime_run_iff _ _ _ _ 0 _ armed 3 600 armed_names (by decide)
  obtain ⟨t', hrun', hiff'⟩ := wakesInTime_run_iff _ _ _ _ 0 _ passed 3 600 passed_names (by decide)
  have hwakes := ahead_armed hrun
  have hlate := overdue_passed hrun'
  exact ⟨⟨t, hrun, hwakes, hiff.mp hwakes⟩, t', hrun', hlate, fun hfits => hlate (hiff'.mpr hfits)⟩

theorem oversleeps_passed : ∃ t, fresh.run 3 passed = some t ∧ ¬ WakesInTime 3 600 t := by
  have hinit : fresh.Holds [] := ⟨CRBTree.stands_init .., by simp [fresh, init]⟩
  obtain ⟨t, L, hrun, -, -⟩ := hinit.runAny passed_names (by decide : 0 + 2 < 3)
  exact ⟨t, hrun, overdue_passed hrun⟩

end TreeTimer

end Netfram
