-- SUMMARY: The poller: what the kernel watches of a session's descriptor, and the flags of its events.
import NetworkEtc.Netfram.SessionWrite

/-!
# `CPoll`

The kernel keeps an interest set for each descriptor that is registered. A session has
a read and a write event, whose `Active` flags stand for the two parts of the set: each
call reads the flag of the other event to find the new set.
-/

namespace Netfram

open Library

def EPOLLIN : UInt32 := 0x001
def EPOLLOUT : UInt32 := 0x004
def EPOLLET : UInt32 := 0x80000000

inductive EpollCtl where
  | add
  | mod
  | del

/-- `epoll_ctl` on a descriptor with the interest set `interest`, which is `none` where
it is not registered. A call that fails gives `none`. -/
def epollCtl (interest : Option UInt32) (liOption : EpollCtl) (events : UInt32) :
    Option (Option UInt32) :=
  match liOption, interest with
  | .add, none => some (some events)
  | .mod, some _ => some (some events)
  | .del, some _ => some none
  | _, _ => none

/-- The two events of a session. -/
inductive EventSide where
  | read
  | write
  deriving DecidableEq

namespace EventSide

def other : EventSide → EventSide
  | read => write
  | write => read

/-- The kernel's event a session's event waits for. -/
def mask : EventSide → UInt32
  | read => EPOLLIN
  | write => EPOLLOUT

end EventSide

/-- A session as the poller sees it. -/
structure Polled where
  active : EventSide → Bool
  interest : Option UInt32

namespace Polled

def setActive (s : Polled) (side : EventSide) (value : Bool) : Polled :=
  { s with active := fun side' => if side' = side then value else s.active side' }

/-- Both events. -/
def setBoth (s : Polled) (value : Bool) : Polled := { s with active := fun _ => value }

end Polled

namespace CPoll

/-- `Add(CIoEvent*, int, uint32_t)`. The flag is set whether `epoll_ctl` fails or not. -/
def add (s : Polled) (apoEvent : EventSide) (aiEvent auFlags : UInt32) : Int × Polled :=
  let (lpoEvent, luPrevEvents) :=
    if aiEvent = EPOLLIN then (EventSide.write, EPOLLIN) else (EventSide.read, EPOLLOUT)
  let (liOption, liEvents) :=
    if s.active lpoEvent then (EpollCtl.mod, aiEvent ||| luPrevEvents) else (.add, aiEvent)
  let s := s.setActive apoEvent true
  match epollCtl s.interest liOption (liEvents ||| auFlags ||| EPOLLET) with
  | none => (minaError, s)
  | some interest => (minaOk, { s with interest })

/-- `Del(CIoEvent*, int, uint32_t)` -/
def del (s : Polled) (apoEvent : EventSide) (aiEvent auFlags : UInt32) : Int × Polled :=
  if auFlags &&& 1 ≠ 0 then (minaOk, s.setActive apoEvent false)
  else
    let (lpoEvent, luPrevEvents) :=
      if aiEvent = EPOLLIN then (EventSide.write, EPOLLOUT) else (EventSide.read, EPOLLIN)
    let (liOption, events) :=
      if s.active lpoEvent then (EpollCtl.mod, luPrevEvents ||| auFlags ||| EPOLLET)
      else (.del, 0)
    match epollCtl s.interest liOption events with
    | none => (minaError, s)
    | some interest => (minaOk, { s with interest }.setActive apoEvent false)

/-- `Add(CSession*)` -/
def addSession (s : Polled) : Int × Polled :=
  match epollCtl s.interest .add (EPOLLIN ||| EPOLLOUT ||| EPOLLET) with
  | none => (minaError, s)
  | some interest => (minaOk, { s with interest }.setBoth true)

/-- `Del(CSession*, uint32_t)` -/
def delSession (s : Polled) (auFlags : UInt32) : Int × Polled :=
  if auFlags &&& 1 ≠ 0 then (minaOk, s.setBoth false)
  else
    match epollCtl s.interest .del 0 with
    | none => (minaError, s)
    | some interest => (minaOk, { s with interest }.setBoth false)

-- ---------------------------------------------------------------------------
-- Runs
-- ---------------------------------------------------------------------------

/-- A call for one of the events comes with the kernel's event that belongs to it. -/
inductive Call where
  | add (side : EventSide)
  | del (side : EventSide)
  | addSession
  | delSession

def step (s : Polled) : Call → Polled × Int
  | .add side => (add s side side.mask 0).swap
  | .del side => (del s side side.mask 0).swap
  | .addSession => (addSession s).swap
  | .delSession => (delSession s 0).swap

/-- A session the poller has not seen yet. -/
def machine : Machine Polled Call Int := ⟨⟨fun _ => false, none⟩, step⟩

/-- The kernel watches what is active. -/
def Agrees (s : Polled) : Prop :=
  ∀ side : EventSide, s.interest.getD 0 &&& side.mask ≠ 0 ↔ s.active side = true

/-- An event is added while the other one is active. -/
def AddsBeside (st : Step Polled Call Int) : Prop :=
  ∃ side, st.input = .add side ∧ st.pre.active side.other = true

instance decidableAgrees (s : Polled) : Decidable (Agrees s) :=
  decidable_of_iff ((s.interest.getD 0 &&& EventSide.read.mask ≠ 0 ↔ s.active .read = true) ∧
    (s.interest.getD 0 &&& EventSide.write.mask ≠ 0 ↔ s.active .write = true))
    ⟨fun h side => by cases side with
      | read => exact h.1
      | write => exact h.2, fun h => ⟨h .read, h .write⟩⟩

instance decidableAddsBeside (st : Step Polled Call Int) : Decidable (AddsBeside st) :=
  match st with
  | ⟨pre, .add side, _, _⟩ =>
    decidable_of_iff (pre.active side.other = true) (by simp [AddsBeside])
  | ⟨_, .del _, _, _⟩ => isFalse (by simp [AddsBeside])
  | ⟨_, .addSession, _, _⟩ => isFalse (by simp [AddsBeside])
  | ⟨_, .delSession, _, _⟩ => isFalse (by simp [AddsBeside])

variable {s : Polled} {side : EventSide}

/-- What a call of `Add` that succeeds leaves behind. -/
theorem add_spec (hok : (add s side side.mask 0).1 = minaOk) :
    (add s side side.mask 0).2.interest = some (side.mask ||| EPOLLET) ∧
    (add s side side.mask 0).2.active = (s.setActive side true).active := by
  cases side with
  | read =>
    cases hwrite : s.active .write <;> cases hint : s.interest <;>
      simp_all [add, epollCtl, EventSide.mask, Polled.setActive, minaOk, minaError]
  | write =>
    cases hread : s.active .read <;> cases hint : s.interest <;>
      simp_all [add, epollCtl, EventSide.mask, Polled.setActive, minaOk, minaError, EPOLLIN, EPOLLOUT]

/-- What a call of `Del` that succeeds leaves behind. -/
theorem del_spec (hok : (del s side side.mask 0).1 = minaOk) :
    (del s side side.mask 0).2.interest =
      (if s.active side.other then some (side.other.mask ||| EPOLLET) else none) ∧
    (del s side side.mask 0).2.active = (s.setActive side false).active := by
  cases side with
  | read =>
    cases hwrite : s.active .write <;> cases hint : s.interest <;>
      simp_all [del, epollCtl, EventSide.mask, EventSide.other, Polled.setActive, minaOk, minaError]
  | write =>
    cases hread : s.active .read <;> cases hint : s.interest <;>
      simp_all [del, epollCtl, EventSide.mask, EventSide.other, Polled.setActive, minaOk, minaError,
        EPOLLIN, EPOLLOUT]

/-- A set with the bit of one event. -/
theorem mask_and (side side' : EventSide) :
    (side.mask ||| EPOLLET) &&& side'.mask ≠ 0 ↔ side' = side := by
  cases side <;> cases side' <;> decide

/-- After an `Add` the set agrees, unless the other event is active: it has been lost
from the set. -/
theorem agrees_add (hok : (add s side side.mask 0).1 = minaOk) :
    Agrees (add s side side.mask 0).2 ↔ s.active side.other = false := by
  obtain ⟨hinterest, hactive⟩ := add_spec hok
  unfold Agrees
  rw [hinterest, hactive]
  simp only [Option.getD_some, mask_and, Polled.setActive]
  constructor
  · intro h
    have hother : side.other ≠ side := by cases side <;> decide
    specialize h side.other
    rw [if_neg hother] at h
    exact Bool.eq_false_iff.mpr fun hact => hother (h.mpr hact)
  · intro h side'
    by_cases hside : side' = side
    · simp [hside]
    · have hother : side' = side.other := by cases side <;> cases side' <;> simp_all [EventSide.other]
      rw [if_neg hside, hother, h]
      simpa [hother] using hside

theorem agrees_del (hok : (del s side side.mask 0).1 = minaOk) :
    Agrees (del s side side.mask 0).2 := by
  obtain ⟨hinterest, hactive⟩ := del_spec hok
  unfold Agrees
  rw [hinterest, hactive]
  intro side'
  simp only [Polled.setActive]
  by_cases hside : side' = side
  · subst hside
    have hne : side' ≠ side'.other := by cases side' <;> decide
    rw [if_pos rfl]
    split
    · rw [Option.getD_some, mask_and]
      simpa using hne
    · simp
  · have hother : side' = side.other := by cases side <;> cases side' <;> simp_all [EventSide.other]
    subst hother
    rw [if_neg hside]
    split
    · next hact => simp [mask_and, hact]
    · next hact => simp [hact]

theorem agrees_addSession (hok : (addSession s).1 = minaOk) : Agrees (addSession s).2 := by
  have hboth : ∀ side : EventSide, (EPOLLIN ||| EPOLLOUT ||| EPOLLET) &&& side.mask ≠ 0 := by
    intro side
    cases side <;> decide
  intro side
  cases hint : s.interest with
  | none => simpa [addSession, hint, epollCtl, Polled.setBoth] using hboth side
  | some _ => simp [addSession, hint, epollCtl, minaOk, minaError] at hok

theorem agrees_delSession (hok : (delSession s 0).1 = minaOk) : Agrees (delSession s 0).2 := by
  intro side
  cases hint : s.interest with
  | none => simp [delSession, hint, epollCtl, minaOk, minaError] at hok
  | some _ => simp [delSession, hint, epollCtl, Polled.setBoth]

/-- After a call that succeeds the set agrees with the flags, unless the call has added
an event beside another. -/
theorem agrees_step {call : Call} (hok : (step s call).2 = minaOk) :
    Agrees (step s call).1 ↔ ¬ AddsBeside ⟨s, call, (step s call).2, (step s call).1⟩ := by
  cases call with
  | add side => simpa [AddsBeside, step] using agrees_add hok
  | del side => simpa [AddsBeside, step] using agrees_del hok
  | addSession => simpa [AddsBeside, step] using agrees_addSession hok
  | delSession => simpa [AddsBeside, step] using agrees_delSession hok

/-- In a run whose calls all succeed the kernel's interest set agrees with the flags
after each call, if and only if no event is ever added while the other one is active. -/
theorem interest_agrees_iff (calls : List Call)
    (hok : ∀ st ∈ machine.trace calls, st.output = minaOk) :
    (∀ st ∈ machine.trace calls, Agrees st.post) ↔
      ∀ st ∈ machine.trace calls, ¬ AddsBeside st := by
  have hstep : ∀ st ∈ machine.trace calls, (Agrees st.post ↔ ¬ AddsBeside st) := by
    intro st hmem
    obtain ⟨_, call, earlier, -, rfl⟩ := Machine.mem_trace machine hmem
    exact agrees_step (hok _ hmem)
  constructor
  · intro h st hmem
    exact (hstep st hmem).mp (h st hmem)
  · intro h st hmem
    exact (hstep st hmem).mpr (h st hmem)

/-- Reading, then writing as well: reading is lost. -/
theorem interest_lost :
    (∀ st ∈ machine.trace [.add .write, .add .read], st.output = minaOk) ∧
    ¬ ∀ st ∈ machine.trace [.add .write, .add .read], Agrees st.post := by decide

/-- A session is registered for both events and gives them up one by one. -/
theorem interest_agrees_both :
    (machine.trace [.del .read, .del .write, .addSession]).length = 3 ∧
      ∀ st ∈ machine.trace [.del .read, .del .write, .addSession], Agrees st.post :=
  ⟨rfl, (interest_agrees_iff _ (by decide)).mpr (by decide)⟩

end CPoll

end Netfram
