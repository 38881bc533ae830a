-- SUMMARY: The clock reading and the timer holder: arming, cancelling, and what is due.
import Mathlib.Data.UInt
import Mathlib.Data.List.Basic

/-!
# `CTimeValue` and `CTimer`

The holder is seen as the set of armed events with their keys: an event is in the
tree exactly while its `TimerOn` flag is set. Which of several due events a call
of `Expire` meets first is left open; the users of this module let any of them
be the one.
-/

namespace Netfram

/-- A reading of the clock: `gettimeofday` in the nanoseconds of a non-negative
`int64_t`. -/
structure CTimeValue where
  mi64NanoSec : Nat
  bound : mi64NanoSec < 2 ^ 63
  deriving DecidableEq

namespace CTimeValue

def msec (t : CTimeValue) : UInt64 := UInt64.ofNat (t.mi64NanoSec / 1000000)

def sec (t : CTimeValue) : UInt64 := UInt64.ofNat (t.mi64NanoSec / 1000000000)

instance secNeZero : NeZero (2 ^ 33) := ⟨by decide⟩

/-- A reading on the full second. -/
def ofSec (s : Fin (2 ^ 33)) : CTimeValue := ⟨s * 1000000000, by omega⟩

theorem sec_toNat (t : CTimeValue) : t.sec.toNat = t.mi64NanoSec / 1000000000 := by
  have h := t.bound
  rw [sec, UInt64.toNat_ofNat_of_lt']
  simp only [UInt64.size]
  omega

/-- Seconds of an `int64_t` of nanoseconds are far from the end of 64 bits. -/
theorem sec_lt (t : CTimeValue) : t.sec.toNat < 2 ^ 34 := by
  have h := t.bound
  rw [sec_toNat]
  omega

theorem sec_mono {t u : CTimeValue} (h : t.mi64NanoSec ≤ u.mi64NanoSec) :
    t.sec.toNat ≤ u.sec.toNat := by
  rw [sec_toNat, sec_toNat]
  exact Nat.div_le_div_right h

end CTimeValue

/-- The events that are armed, each with its `mtKey` in milliseconds. -/
structure CTimer (ε : Type) where
  moTimerHolder : List (ε × UInt64)
  deriving DecidableEq

namespace CTimer

variable {ε : Type} [DecidableEq ε]

/-- The key an armed event is waiting for. -/
def key (timer : CTimer ε) (event : ε) : Option UInt64 := timer.moTimerHolder.lookup event

def timerOn (timer : CTimer ε) (event : ε) : Bool := (timer.key event).isSome

def empty (timer : CTimer ε) : Bool := timer.moTimerHolder.isEmpty

/-- Take an event out of the holder; an event that is not in it stays out. -/
def remove (timer : CTimer ε) (event : ε) : CTimer ε :=
  ⟨timer.moTimerHolder.filter (fun entry => entry.1 ≠ event)⟩

/-- `CTimer::Delete`. The assertion that the holder is not empty is the only way
it fails. -/
def delete (timer : CTimer ε) (event : ε) : Option (CTimer ε) :=
  if timer.empty then none else some (timer.remove event)

/-- `MINA_TIMER_LAZY_DELAY` -/
def lazyDelay : Int32 := 1

/-- `CTimer::Add`: arm `event` to fall due `auTime` milliseconds from `now`. An
event that is armed already is moved, unless its key stays the same. -/
def add (timer : CTimer ε) (now : CTimeValue) (event : ε) (auTime : UInt64) : CTimer ε :=
  if auTime = 0 then timer
  else
    let luKey := now.msec + auTime
    match timer.key event with
    | some mtKey =>
      let liDiff := (luKey - mtKey).toUInt32.toInt32
      if liDiff.abs < lazyDelay then timer
      else ⟨(event, luKey) :: (timer.remove event).moTimerHolder⟩
    | none => ⟨(event, luKey) :: timer.moTimerHolder⟩

/-- The test of `CTimer::Expire`, on the difference cut to 32 bits. -/
def due (now : CTimeValue) (mtKey : UInt64) : Bool :=
  0 ≤ (now.msec - mtKey).toUInt32.toInt32

@[simp] theorem timerOn_remove (timer : CTimer ε) (event other : ε) :
    (timer.remove event).timerOn other = (timer.timerOn other && decide (other ≠ event)) := by
  obtain ⟨holder⟩ := timer
  simp only [timerOn, key, remove]
  induction holder with
  | nil => simp
  | cons entry holder ih =>
    obtain ⟨e, k⟩ := entry
    by_cases ho : other = e
    · subst ho
      by_cases he : other = event
      · simpa [he] using ih
      · simp [he]
    · have hb : (other == e) = false := by simpa using ho
      by_cases he : e = event
      · subst he
        simpa [List.lookup_cons, hb] using ih
      · simpa [he, List.lookup_cons, hb] using ih

theorem timerOn_delete {timer timer' : CTimer ε} {event : ε} (h : timer.delete event = some timer')
    (other : ε) : timer'.timerOn other = (timer.timerOn other && decide (other ≠ event)) := by
  unfold delete at h
  split at h
  · cases h
  · cases h
    exact timerOn_remove timer event other

/-- Arming an event leaves the others as they were. -/
theorem timerOn_add (timer : CTimer ε) (now : CTimeValue) (event other : ε) (auTime : UInt64)
    (h : auTime ≠ 0) :
    (timer.add now event auTime).timerOn other = (timer.timerOn other || decide (other = event)) := by
  have hcons : ∀ (holder : List (ε × UInt64)) (k : UInt64),
      (⟨(event, k) :: holder⟩ : CTimer ε).timerOn other =
        ((⟨holder⟩ : CTimer ε).timerOn other || decide (other = event)) := by
    intro holder k
    by_cases ho : other = event
    · subst ho; simp [timerOn, key]
    · have hb : (other == event) = false := by simpa using ho
      simp [timerOn, key, List.lookup_cons, hb, ho]
  unfold add
  rw [if_neg h]
  dsimp only
  split
  · rename_i k hk
    split
    · by_cases ho : other = event
      · subst ho; simp [timerOn, hk]
      · simp [ho]
    · rw [hcons]
      have hrem : (⟨(timer.remove event).moTimerHolder⟩ : CTimer ε) = timer.remove event := rfl
      rw [hrem, timerOn_remove]
      by_cases ho : other = event <;> simp [ho]
  · rw [hcons]

end CTimer

end Netfram
