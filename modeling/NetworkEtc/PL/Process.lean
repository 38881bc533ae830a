-- SUMMARY: A node process: the lease object, its timers and the queue of posted timeouts, and when the extend handler finds a round under way.
import NetworkEtc.Library.Machine
import NetworkEtc.Netfram.Timer
import NetworkEtc.PL.PaxosLease

/-!
# A node process

An expired timer is taken out of the holder and posted; its handler runs when the
queue gets to it. Between the two, other handlers may run and may call `Delete` on
the event, which takes it out of the holder, where it no longer is, and leaves it
in the queue.

A failed assertion ends a process. Here it is an effect like the others and the run
goes on: what a dead process does is what a process does that takes no more steps.
-/

namespace PL

open Library Netfram

/-- The session's read and write idle times, in milliseconds. -/
def idleTime : UInt64 := 300000000

structure Process where
  rconf : ReplicatedConfig
  lease : PaxosLease
  timer : CTimer TimerEvent
  /-- The events posted to the queue whose handlers have not run. -/
  posted : List TimerEvent

namespace Process

/-- What a call on the timers does to the holder. -/
def perform (now : CTimeValue) (timer : CTimer TimerEvent) : Effect → CTimer TimerEvent
  | .timerAdd event auTime => timer.add now event auTime
  | .timerDelete event => (timer.delete event).getD timer
  | _ => timer

def performAll (now : CTimeValue) (timer : CTimer TimerEvent) (es : List Effect) :
    CTimer TimerEvent :=
  es.foldl (perform now) timer

/-- Take over what a handler did. -/
def commit (now : CTimeValue) (proc : Process) (r : PaxosLease × List Effect) :
    Process × List Effect :=
  ({ proc with lease := r.1, timer := performAll now proc.timer r.2 }, r.2)

/-- The process once its session is open and before the lease is first asked for. -/
def init (rconf : ReplicatedConfig) (now : CTimeValue) (mem : PLeaseProposer) : Process where
  rconf := rconf
  lease := .init mem
  timer := ((⟨[]⟩ : CTimer TimerEvent).add now .sessionWrite idleTime).add now .sessionRead idleTime
  posted := []

inductive Op where
  | onRead (msg : PLeaseMsg)
  /-- `CTimer::Expire` meets this event. -/
  | expire (event : TimerEvent)
  /-- The queue gets to this event. -/
  | handleTimeout (event : TimerEvent)
  | call (c : PaxosLease.Call)
  deriving DecidableEq

/-- An operation that is not possible does nothing. -/
def step (now : CTimeValue) (proc : Process) : Op → Process × List Effect
  | .onRead msg =>
    proc.commit now (andThen (proc.lease, [.timerAdd .sessionRead idleTime]) fun lease =>
      lease.onRead proc.rconf now.sec msg)
  | .expire event =>
    match proc.timer.key event with
    | some mtKey =>
      if CTimer.due now mtKey then
        ({ proc with
            timer := proc.timer.remove event
            posted := event :: proc.posted.erase event },
          [.postTimeout event])
      else (proc, [])
    | none => (proc, [])
  | .handleTimeout event =>
    if event ∈ proc.posted then
      { proc with posted := proc.posted.erase event }.commit now
        (proc.lease.handleTimeout proc.rconf event)
    else (proc, [])
  | .call c => proc.commit now (proc.lease.call proc.rconf now.sec c)

-- ---------------------------------------------------------------------------
-- Runs of one process
-- ---------------------------------------------------------------------------

/-- A process and the clock it reads. -/
structure Clocked where
  clock : CTimeValue
  process : Process

inductive Label where
  | node (op : Op)
  | tick (now : CTimeValue)

def machine (rconf : ReplicatedConfig) (now : CTimeValue) (mem : PLeaseProposer) :
    Machine Clocked Label (List Effect) where
  init := ⟨now, init rconf now mem⟩
  step s
    | .node op => let r := step s.clock s.process op; ({ s with process := r.1 }, r.2)
    | .tick now => ({ s with clock := now }, [])

/-- The steps of a run, newest first. -/
abbrev Trace := List (Step Clocked Label (List Effect))

/-- `Delete` was called on the event after it was last posted. -/
def cancelled (event : TimerEvent) : Trace → Bool
  | [] => false
  | st :: earlier =>
    if Effect.timerDelete event ∈ st.output then true
    else if Effect.postTimeout event ∈ st.output then false
    else cancelled event earlier

/-- The step runs the handler of an event on which `Delete` was called since it was
posted. -/
def runsCancelled (st : Step Clocked Label (List Effect)) (earlier : Trace) : Bool :=
  match st.input with
  | .node (.handleTimeout event) => st.pre.process.posted.contains event && cancelled event earlier
  | _ => false

/-- No step of a run does that. -/
def FreshTimeouts : Trace → Prop
  | [] => True
  | st :: earlier => runsCancelled st earlier = false ∧ FreshTimeouts earlier

instance : (tr : Trace) → Decidable (FreshTimeouts tr)
  | [] => .isTrue trivial
  | st :: earlier =>
    have := instDecidableFreshTimeouts earlier
    inferInstanceAs (Decidable (runsCancelled st earlier = false ∧ FreshTimeouts earlier))

/-- The assertion of `OnExtendLeaseTimeout` never fails. -/
def ExtendAsserted (tr : Trace) : Prop :=
  ∀ st ∈ tr, Effect.assert .onExtendLeaseTimeout false ∉ st.output

-- ---------------------------------------------------------------------------
-- Events that can still fire
-- ---------------------------------------------------------------------------

/-- Whether an event can still fire after a call on the timers. -/
def liveAfter (event : TimerEvent) (live : Bool) : Effect → Bool
  | .timerAdd event' auTime => live || (decide (event = event') && decide (auTime ≠ 0))
  | .timerDelete event' => live && decide (event ≠ event')
  | _ => live

def liveAll (event : TimerEvent) (live : Bool) (es : List Effect) : Bool :=
  es.foldl (liveAfter event) live

@[simp] theorem liveAll_nil (event : TimerEvent) (live : Bool) : liveAll event live [] = live := rfl

@[simp] theorem liveAll_cons (event : TimerEvent) (live : Bool) (e : Effect) (es : List Effect) :
    liveAll event live (e :: es) = liveAll event (liveAfter event live e) es := rfl

@[simp] theorem liveAll_append (event : TimerEvent) (live : Bool) (es es' : List Effect) :
    liveAll event live (es ++ es') = liveAll event (liveAll event live es) es' :=
  List.foldl_append

theorem timerOn_perform (now : CTimeValue) (timer : CTimer TimerEvent) (event : TimerEvent)
    (e : Effect) :
    (perform now timer e).timerOn event = liveAfter event (timer.timerOn event) e := by
  cases e with
  | timerAdd event' auTime =>
    by_cases hzero : auTime = 0
    · simp [perform, liveAfter, hzero, CTimer.add]
    · simp [perform, liveAfter, hzero, CTimer.timerOn_add]
  | timerDelete event' =>
    cases hdelete : timer.delete event' with
    | some timer' => simp [perform, liveAfter, hdelete, CTimer.timerOn_delete hdelete]
    | none =>
      -- The holder is empty: nothing is armed.
      have hempty : timer.moTimerHolder = [] := by simpa [CTimer.delete, CTimer.empty] using hdelete
      simp [perform, liveAfter, hdelete, CTimer.timerOn, CTimer.key, hempty]
  | _ => rfl

theorem timerOn_performAll (now : CTimeValue) (timer : CTimer TimerEvent) (event : TimerEvent)
    (es : List Effect) :
    (performAll now timer es).timerOn event = liveAll event (timer.timerOn event) es := by
  induction es generalizing timer with
  | nil => rfl
  | cons e es ih =>
    rw [liveAll_cons, ← timerOn_perform now timer event e]
    exact ih (perform now timer e)

/-- A posted event stays good until `Delete` is called on it. -/
theorem liveAll_or (event : TimerEvent) (armed posted : Bool) (es : List Effect) :
    liveAll event (armed || posted) es =
      (liveAll event armed es || (posted && decide (Effect.timerDelete event ∉ es))) := by
  induction es generalizing armed posted with
  | nil => simp
  | cons e es ih =>
    cases e with
    | timerAdd event' auTime =>
      have hor : (armed || posted || (decide (event = event') && decide (auTime ≠ 0))) =
          (armed || (decide (event = event') && decide (auTime ≠ 0)) || posted) := by
        cases armed <;> cases posted <;> simp
      simp only [liveAll_cons, liveAfter, hor, ih, List.mem_cons, reduceCtorEq, false_or]
    | timerDelete event' =>
      by_cases heq : event = event'
      · simp [liveAfter, heq]
      · simp only [liveAll_cons, liveAfter, heq, ne_eq, not_false_eq_true, decide_true,
          Bool.and_true, ih, List.mem_cons, Effect.timerDelete.injEq, false_or]
    | _ => simpa [liveAfter] using ih armed posted

-- ---------------------------------------------------------------------------
-- The two timers of the proposer
-- ---------------------------------------------------------------------------

/-- While the extend timer can fire, no round is under way and the acquire timer
cannot fire. -/
structure TimersOk (p : PLeaseProposer) (acq ext : Bool) : Prop where
  exclusive : ¬ (p.state.preparing = true ∧ p.state.proposing = true)
  idle : ext = true → p.state.preparing = false ∧ p.state.proposing = false ∧ acq = false

/-- What a handler that does not count an acceptance leaves: timers in order, the
extend assertion not failed, the extend timer not armed, nothing posted. -/
structure Safe (acq ext : Bool) (r : PaxosLease × List Effect) : Prop where
  ok : TimersOk r.1.proposer (liveAll .acqTimer acq r.2) (liveAll .extTimer ext r.2)
  asserted : Effect.assert .onExtendLeaseTimeout false ∉ r.2
  unarmed : ∀ auTime, Effect.timerAdd .extTimer auTime ∉ r.2
  unposted : ∀ event, Effect.postTimeout event ∉ r.2

section Handlers

variable {rconf : ReplicatedConfig} {now : UInt64} {lease : PaxosLease} {acq ext : Bool}

/-- Fewer events that can fire are no harm. -/
theorem TimersOk.mono {p : PLeaseProposer} {acq' ext' : Bool} (h : TimersOk p acq ext)
    (hacq : acq' = true → acq = true) (hext : ext' = true → ext = true) :
    TimersOk p acq' ext' := by
  refine ⟨h.exclusive, fun hlive => ?_⟩
  obtain ⟨hprep, hprop, hoff⟩ := h.idle (hext hlive)
  refine ⟨hprep, hprop, ?_⟩
  by_contra hne
  rw [hacq (by simpa using hne)] at hoff
  cases hoff

theorem TimersOk.safe_nil (h : TimersOk lease.proposer acq ext) : Safe acq ext (lease, []) :=
  ⟨h, by simp, by simp, by simp⟩

theorem Safe.andThen {r : PaxosLease × List Effect} {f : PaxosLease → PaxosLease × List Effect}
    (h : Safe acq ext r)
    (hf : TimersOk r.1.proposer (liveAll .acqTimer acq r.2) (liveAll .extTimer ext r.2) →
      Safe (liveAll .acqTimer acq r.2) (liveAll .extTimer ext r.2) (f r.1)) :
    Safe acq ext (andThen r f) := by
  have h' := hf h.ok
  refine ⟨?_, ?_, ?_, ?_⟩
  · simpa using h'.ok
  · simpa using ⟨h.asserted, h'.asserted⟩
  · intro auTime
    simpa using ⟨h.unarmed auTime, h'.unarmed auTime⟩
  · intro event
    simpa using ⟨h.unposted event, h'.unposted event⟩

/-- A new round is in order once the extend timer is off. -/
theorem startPreparing_ok (p : PLeaseProposer) (acq : Bool) :
    TimersOk (p.startPreparing rconf).1 (liveAll .acqTimer acq (p.startPreparing rconf).2)
      (liveAll .extTimer false (p.startPreparing rconf).2) :=
  ⟨by simp, by simp [liveAfter]⟩

theorem startAcquireLease_safe (h : TimersOk lease.proposer acq ext) :
    Safe acq ext (lease.withProposer (lease.proposer.startAcquireLease rconf)) := by
  simp only [PaxosLease.withProposer, PLeaseProposer.startAcquireLease]
  refine ⟨?_, ?_, ?_, ?_⟩
  · simp only [andThen_fst, andThen_snd, liveAll_append]
    split
    · simpa [liveAfter] using startPreparing_ok lease.proposer acq
    · exact ⟨h.exclusive, by simp [liveAfter]⟩
  all_goals
    simp only [andThen_snd]
    split <;> simp

theorem stopAcquireLease_safe :
    Safe acq ext (lease.withProposer lease.proposer.stopAcquireLease) :=
  ⟨⟨by simp [PaxosLease.withProposer, PLeaseProposer.stopAcquireLease],
      by simp [PaxosLease.withProposer, PLeaseProposer.stopAcquireLease, liveAfter]⟩,
    by simp [PaxosLease.withProposer, PLeaseProposer.stopAcquireLease],
    by simp [PaxosLease.withProposer, PLeaseProposer.stopAcquireLease],
    by simp [PaxosLease.withProposer, PLeaseProposer.stopAcquireLease]⟩

theorem onLeaseTimeout_safe (h : TimersOk lease.proposer acq ext) :
    Safe acq ext (PLeaseLearner.onLeaseTimeout rconf lease) := by
  refine Safe.andThen ⟨?_, by simp, by simp, by simp⟩ fun h' => ?_
  · simpa [liveAfter] using h
  · unfold PaxosLease.onLeaseTimeout
    split
    · exact startAcquireLease_safe h'
    · exact h'.safe_nil

theorem checkLease_safe (h : TimersOk lease.proposer acq ext) :
    Safe acq ext (PLeaseLearner.checkLease rconf now lease) := by
  unfold PLeaseLearner.checkLease
  split
  · exact onLeaseTimeout_safe h
  · exact h.safe_nil

theorem onLearnChosen_safe (msg : PLeaseMsg) (h : TimersOk lease.proposer acq ext) :
    Safe acq ext (PLeaseLearner.onLearnChosen rconf now lease msg) := by
  refine (checkLease_safe h).andThen fun h => ?_
  dsimp only
  split
  · exact h.safe_nil
  refine Safe.andThen ⟨?_, by simp, by simp, by simp⟩ fun h => ?_
  · simpa [liveAfter] using h
  refine (checkLease_safe h).andThen fun h => ?_
  refine (checkLease_safe h).andThen fun h => ?_
  split
  · exact stopAcquireLease_safe
  · exact h.safe_nil

/-- The acceptor makes no call that the proposer's timers or its assertion notice. -/
theorem acceptor_outcome_safe {state state' : PLeaseAcceptorState} {msg : PLeaseMsg}
    {es : List Effect} (hout : PLeaseAcceptor.Outcome rconf now state msg state' es)
    (h : TimersOk lease.proposer acq ext) :
    Safe acq ext ({ lease with acceptor := state' }, es) := by
  cases hout <;>
    exact ⟨by simpa [liveAfter] using h, by simp, by simp, by simp⟩

theorem acceptorProcessMsg_safe (msg : PLeaseMsg) (h : TimersOk lease.proposer acq ext) :
    Safe acq ext (PaxosLease.acceptorProcessMsg rconf now lease msg) := by
  unfold PaxosLease.acceptorProcessMsg
  dsimp only
  split
  · exact (checkLease_safe h).andThen fun h =>
      acceptor_outcome_safe (PLeaseAcceptor.processMsg_outcome rconf now _ _ msg) h
  · exact h.safe_nil.andThen fun h =>
      acceptor_outcome_safe (PLeaseAcceptor.processMsg_outcome rconf now _ _ msg) h

theorem call_safe (c : PaxosLease.Call) (h : TimersOk lease.proposer acq ext) :
    Safe acq ext (PaxosLease.call rconf now lease c) := by
  cases c with
  | acquireLease => exact startAcquireLease_safe h
  | startAcquireLease => exact startAcquireLease_safe h
  | stopAcquireLease => exact stopAcquireLease_safe
  | isLeaseOwner => exact checkLease_safe h

/-- An answer keeps the timers in order, and arms the extend timer only when that
cannot fire. -/
theorem processMsg_ok (rconf : ReplicatedConfig) (now : UInt64) {p : PLeaseProposer}
    (msg : PLeaseMsg) (h : TimersOk p acq ext) :
    TimersOk (p.processMsg rconf now msg).1
      (liveAll .acqTimer acq (p.processMsg rconf now msg).2)
      (liveAll .extTimer ext (p.processMsg rconf now msg).2) ∧
    Effect.assert .onExtendLeaseTimeout false ∉ (p.processMsg rconf now msg).2 ∧
    (ext = true →
      ∀ auTime, Effect.timerAdd .extTimer auTime ∉ (p.processMsg rconf now msg).2) ∧
    ∀ event, Effect.postTimeout event ∉ (p.processMsg rconf now msg).2 := by
  have hout := PLeaseProposer.processMsg_outcome rconf now p msg
  generalize p.processMsg rconf now msg = r at hout ⊢
  obtain ⟨p', es⟩ := r
  dsimp only at hout ⊢
  -- A round under way means that the extend timer cannot fire.
  have hprepOff : p.state.preparing = true → ext = false := by
    intro hprep
    by_contra hne
    simp [(h.idle (by simpa using hne)).1] at hprep
  have hpropOff : p.state.proposing = true → ext = false := by
    intro hprop
    by_contra hne
    simp [(h.idle (by simpa using hne)).2.1] at hprop
  cases hout with
  | skipped _ hes hskip =>
    rcases hes with rfl | rfl
    · exact ⟨⟨h.exclusive, h.idle⟩, by simp, by simp, by simp⟩
    · exact ⟨⟨h.exclusive, h.idle⟩, by simp, by simp, by simp⟩
  | prepareCounted _ hprep _ =>
    exact ⟨⟨by simpa using h.exclusive, by simp [hprepOff hprep]⟩, by simp, by simp, by simp⟩
  | prepareRestarted _ hprep _ =>
    rw [hprepOff hprep]
    exact ⟨startPreparing_ok _ acq, by simp, by simp, by simp⟩
  | gaveUp _ hprep _ =>
    exact ⟨⟨by simp, by simp [hprepOff hprep]⟩, by simp, by simp, by simp⟩
  | proposed _ hprep _ _ _ =>
    exact ⟨⟨by simp, by simp [liveAfter, hprepOff hprep]⟩, by simp, by simp, by simp⟩
  | proposeCounted _ hprop _ =>
    exact ⟨⟨by simpa using h.exclusive, by simp [hpropOff hprop]⟩, by simp, by simp, by simp⟩
  | proposeRestarted _ hprop _ =>
    rw [hpropOff hprop]
    exact ⟨startPreparing_ok _ acq, by simp, by simp, by simp⟩
  | learned _ hprop _ _ _ =>
    have hprep : p.state.preparing = false := by simpa [hprop] using h.exclusive
    refine ⟨⟨?_, ?_⟩, ?_, ?_, ?_⟩
    · simp [PLeaseProposer.learn, PLeaseProposer.broadcastMessage]
    · simp [PLeaseProposer.learn, PLeaseProposer.broadcastMessage, liveAfter, hprep]
    · simp [PLeaseProposer.learn, PLeaseProposer.broadcastMessage]
    · simp [hpropOff hprop]
    · simp [PLeaseProposer.learn, PLeaseProposer.broadcastMessage]

end Handlers

-- ---------------------------------------------------------------------------
-- Whole runs
-- ---------------------------------------------------------------------------

/-- The event is in the queue and `Delete` was not called on it since it got there. -/
def queued (event : TimerEvent) (tr : Trace) (proc : Process) : Bool :=
  proc.posted.contains event && !cancelled event tr

/-- The event can still fire. -/
def live (event : TimerEvent) (tr : Trace) (proc : Process) : Bool :=
  proc.timer.timerOn event || queued event tr proc

/-- What holds of a process after a run without stale timeouts. -/
structure TimerInv (tr : Trace) (proc : Process) : Prop where
  ok : TimersOk proc.lease.proposer (live .acqTimer tr proc) (live .extTimer tr proc)
  once : proc.timer.timerOn .extTimer = true → queued .extTimer tr proc = false

section Runs

variable {s : Clocked} {tr : Trace} {label : Label} {proc : Process}

/-- Nothing a handler does posts an event. -/
theorem cancelled_cons {event : TimerEvent} {es : List Effect} {s' : Clocked}
    (hes : Effect.postTimeout event ∉ es) :
    cancelled event (⟨s, label, es, s'⟩ :: tr) =
      (decide (Effect.timerDelete event ∈ es) || cancelled event tr) := by
  simp only [cancelled, if_neg hes]
  split
  · rename_i hdelete
    simp [hdelete]
  · rename_i hdelete
    simp [hdelete]

/-- What a handler leaves able to fire. -/
theorem live_commit (event : TimerEvent) (now : CTimeValue) (r : PaxosLease × List Effect)
    (hes : Effect.postTimeout event ∉ r.2) {s' : Clocked} :
    live event (⟨s, label, r.2, s'⟩ :: tr) (proc.commit now r).1 =
      liveAll event (live event tr proc) r.2 := by
  have hqueued : queued event (⟨s, label, r.2, s'⟩ :: tr) (proc.commit now r).1 =
      (queued event tr proc && decide (Effect.timerDelete event ∉ r.2)) := by
    by_cases hdelete : Effect.timerDelete event ∈ r.2
    · simp [queued, commit, cancelled_cons hes, hdelete]
    · simp [queued, commit, cancelled_cons hes, hdelete]
  rw [live, hqueued, live, liveAll_or]
  simp only [commit, timerOn_performAll]

/-- A handler that keeps the timers in order keeps the invariant. -/
theorem TimerInv.commit (h : TimerInv tr proc) (now : CTimeValue) {r : PaxosLease × List Effect}
    (hok : TimersOk r.1.proposer (liveAll .acqTimer (live .acqTimer tr proc) r.2)
      (liveAll .extTimer (live .extTimer tr proc) r.2))
    (hunarmed : live .extTimer tr proc = true → ∀ auTime, Effect.timerAdd .extTimer auTime ∉ r.2)
    (hunposted : ∀ event, Effect.postTimeout event ∉ r.2) {s' : Clocked} :
    TimerInv (⟨s, label, r.2, s'⟩ :: tr) (proc.commit now r).1 := by
  refine ⟨?_, fun harmed => ?_⟩
  · rw [live_commit _ _ _ (hunposted _), live_commit _ _ _ (hunposted _)]
    exact hok
  -- If the event was in the queue and stays good, it was not armed, and is not armed now.
  by_contra hqueued
  have hcancelled : cancelled .extTimer (⟨s, label, r.2, s'⟩ :: tr) = false ∧
      TimerEvent.extTimer ∈ proc.posted := by
    simpa [queued, Process.commit, and_comm] using hqueued
  rw [cancelled_cons (hunposted _), Bool.or_eq_false_iff, decide_eq_false_iff_not] at hcancelled
  obtain ⟨⟨hdelete, htr⟩, hposted⟩ := hcancelled
  have hbefore : queued .extTimer tr proc = true := by simp [queued, hposted, htr]
  have hnot : proc.timer.timerOn .extTimer = false := by
    by_contra hon
    rw [h.once (by simpa using hon)] at hbefore
    cases hbefore
  have hadd := hunarmed (by simp [live, hbefore])
  have hkeep : ∀ es : List Effect, (∀ auTime, Effect.timerAdd .extTimer auTime ∉ es) →
      liveAll .extTimer false es = false := by
    intro es
    induction es with
    | nil => simp
    | cons e es ih =>
      intro hes
      have hrest := ih fun auTime hmem => hes auTime (List.mem_cons_of_mem _ hmem)
      cases e with
      | timerAdd event auTime =>
        have hne : TimerEvent.extTimer ≠ event := by
          rintro rfl
          exact hes auTime List.mem_cons_self
        simpa [liveAfter, hne] using hrest
      | _ => simpa [liveAfter] using hrest
  simp only [Process.commit, timerOn_performAll, hnot, hkeep r.2 hadd] at harmed
  cases harmed

theorem TimerInv.commit_safe (h : TimerInv tr proc) (now : CTimeValue)
    {r : PaxosLease × List Effect}
    (hsafe : Safe (live .acqTimer tr proc) (live .extTimer tr proc) r) {s' : Clocked} :
    TimerInv (⟨s, label, r.2, s'⟩ :: tr) (proc.commit now r).1 :=
  h.commit now hsafe.ok (fun _ => hsafe.unarmed) hsafe.unposted

/-- A step that leaves no mark. -/
theorem TimerInv.idle (h : TimerInv tr proc) {s' : Clocked} :
    TimerInv (⟨s, label, [], s'⟩ :: tr) proc :=
  ⟨h.ok, h.once⟩

/-- An expired timer is in the queue and no longer in the holder: it can fire as it
could before, and so can the others. -/
theorem live_expire (event : TimerEvent) {posted : TimerEvent}
    (hon : proc.timer.timerOn posted = true) {s' : Clocked} :
    live event (⟨s, label, [.postTimeout posted], s'⟩ :: tr)
      { proc with
        timer := proc.timer.remove posted
        posted := posted :: proc.posted.erase posted } = live event tr proc := by
  by_cases heq : event = posted
  · subst heq
    simp [live, queued, cancelled, hon]
  · have hne : Effect.postTimeout event ≠ Effect.postTimeout posted := by simpa using heq
    simp [live, queued, cancelled, heq, List.mem_erase_of_ne heq]

theorem onRead_inv (h : TimerInv tr proc) (now : CTimeValue) (msg : PLeaseMsg) {s' : Clocked} :
    TimerInv (⟨s, label, (step now proc (.onRead msg)).2, s'⟩ :: tr)
      (step now proc (.onRead msg)).1 ∧
    Effect.assert .onExtendLeaseTimeout false ∉ (step now proc (.onRead msg)).2 := by
  have hidle : Safe (live .acqTimer tr proc) (live .extTimer tr proc)
      (proc.lease, [.timerAdd .sessionRead idleTime]) :=
    ⟨by simpa [liveAfter] using h.ok, by simp, by simp, by simp⟩
  simp only [step]
  by_cases hresp : msg.isResponse = true
  · have hreq : ¬ msg.isRequest = true := by
      cases htype : msg.type <;> simp_all [PLeaseMsg.isRequest, PLeaseMsg.isResponse,
        PLeaseMsg.isPrepareResponse, PLeaseMsg.isProposeResponse]
    have hread : (andThen (proc.lease, [.timerAdd .sessionRead idleTime]) fun lease =>
          lease.onRead proc.rconf now.sec msg) =
        ({ proc.lease with proposer := (proc.lease.proposer.processMsg proc.rconf now.sec msg).1 },
          .timerAdd .sessionRead idleTime ::
            (proc.lease.proposer.processMsg proc.rconf now.sec msg).2) := by
      simp [andThen, PaxosLease.onRead, PaxosLease.withProposer, hresp, hreq]
    rw [hread]
    have hanswer := processMsg_ok proc.rconf now.sec msg h.ok
    generalize proc.lease.proposer.processMsg proc.rconf now.sec msg = r at hanswer ⊢
    obtain ⟨hok, hassert, hunarmed, hunposted⟩ := hanswer
    refine ⟨h.commit now (r := ({ proc.lease with proposer := r.1 },
      .timerAdd .sessionRead idleTime :: r.2)) ?_ ?_ ?_, ?_⟩
    · simpa [liveAfter] using hok
    · simpa using hunarmed
    · simpa using hunposted
    · simpa [commit] using hassert
  · have hsafe : Safe (live .acqTimer tr proc) (live .extTimer tr proc)
        (andThen (proc.lease, [.timerAdd .sessionRead idleTime]) fun lease =>
          lease.onRead proc.rconf now.sec msg) := by
      refine hidle.andThen fun hok => ?_
      unfold PaxosLease.onRead
      dsimp only
      rw [if_neg hresp]
      split
      · exact acceptorProcessMsg_safe msg ⟨by simpa using hok.exclusive, by simpa using hok.idle⟩
      · exact onLearnChosen_safe msg hok
    exact ⟨h.commit_safe now hsafe, hsafe.asserted⟩

/-- Taking an event off the queue makes no other event fire. -/
theorem live_of_live_erase {event taken : TimerEvent}
    (h : live event tr { proc with posted := proc.posted.erase taken } = true) :
    live event tr proc = true := by
  simp only [live, queued, Bool.or_eq_true, Bool.and_eq_true, List.contains_iff_mem] at h ⊢
  rcases h with h | h
  · exact .inl h
  · exact .inr ⟨List.mem_of_mem_erase h.1, h.2⟩

/-- The handler of an event that can still fire finds the proposer as it expects. -/
theorem handleTimeout_safe (h : TimerInv tr proc) {event : TimerEvent}
    (hnodup : proc.posted.Nodup) (hposted : event ∈ proc.posted)
    (hfresh : cancelled event tr = false) :
    Safe (live .acqTimer tr { proc with posted := proc.posted.erase event })
      (live .extTimer tr { proc with posted := proc.posted.erase event })
      (proc.lease.handleTimeout proc.rconf event) := by
  have hqueued : queued event tr proc = true := by simp [queued, hposted, hfresh]
  have hok : TimersOk proc.lease.proposer
      (live .acqTimer tr { proc with posted := proc.posted.erase event })
      (live .extTimer tr { proc with posted := proc.posted.erase event }) :=
    h.ok.mono live_of_live_erase live_of_live_erase
  cases event with
  | acqTimer =>
    -- The acquire timer could fire, so the extend timer cannot.
    have hext : live .extTimer tr { proc with posted := proc.posted.erase .acqTimer } = false := by
      by_contra hne
      have hoff := (h.ok.idle (live_of_live_erase (by simpa using hne))).2.2
      simp [live, hqueued] at hoff
    rw [hext]
    exact ⟨startPreparing_ok _ _, by simp [PaxosLease.handleTimeout, PaxosLease.withProposer,
      PLeaseProposer.onAcquireLeaseTimeout], by simp [PaxosLease.handleTimeout,
      PaxosLease.withProposer, PLeaseProposer.onAcquireLeaseTimeout],
      by simp [PaxosLease.handleTimeout, PaxosLease.withProposer,
        PLeaseProposer.onAcquireLeaseTimeout]⟩
  | extTimer =>
    -- The extend timer could fire, so no round is under way; it is armed no more.
    have hlive : live .extTimer tr proc = true := by simp [live, hqueued]
    obtain ⟨hprep, hprop, -⟩ := h.ok.idle hlive
    have hext : live .extTimer tr { proc with posted := proc.posted.erase .extTimer } = false := by
      have hnot : TimerEvent.extTimer ∉ proc.posted.erase .extTimer :=
        fun hmem => (hnodup.mem_erase_iff.mp hmem).1 rfl
      have hoff : proc.timer.timerOn .extTimer = false := by
        by_contra hon
        rw [h.once (by simpa using hon)] at hqueued
        cases hqueued
      simp [live, queued, hoff, hnot]
    rw [hext]
    refine ⟨?_, ?_, ?_, ?_⟩
    · simpa [PaxosLease.handleTimeout, PaxosLease.withProposer,
        PLeaseProposer.onExtendLeaseTimeout, liveAfter] using startPreparing_ok _ _
    all_goals simp [PaxosLease.handleTimeout, PaxosLease.withProposer,
      PLeaseProposer.onExtendLeaseTimeout, hprep, hprop]
  | acceptorLeaseTimer => exact ⟨hok, by simp [PaxosLease.handleTimeout],
      by simp [PaxosLease.handleTimeout], by simp [PaxosLease.handleTimeout]⟩
  | learnerLeaseTimer => exact onLeaseTimeout_safe hok
  | sessionRead | sessionWrite => exact hok.safe_nil

/-- An event is in the queue at most once. -/
theorem step_posted_nodup (now : CTimeValue) (op : Op) (h : proc.posted.Nodup) :
    (step now proc op).1.posted.Nodup := by
  cases op with
  | onRead msg => exact h
  | call c => exact h
  | handleTimeout event =>
    simp only [step]
    split
    · exact h.erase event
    · exact h
  | expire event =>
    simp only [step]
    split
    · split
      · exact List.nodup_cons.mpr ⟨fun hmem => (h.mem_erase_iff.mp hmem).1 rfl, h.erase event⟩
      · exact h
    · exact h

/-- One step keeps the invariant and does not fail the assertion. -/
theorem step_timers (h : TimerInv tr proc) (hnodup : proc.posted.Nodup) (now : CTimeValue) (op : Op)
    (hfresh : ∀ event, op = .handleTimeout event → event ∈ proc.posted →
      cancelled event tr = false) (s s' : Clocked) (label : Label) :
    TimerInv (⟨s, label, (step now proc op).2, s'⟩ :: tr) (step now proc op).1 ∧
    Effect.assert .onExtendLeaseTimeout false ∉ (step now proc op).2 := by
  cases op with
  | onRead msg => exact onRead_inv h now msg
  | call c =>
    have hsafe : Safe _ _ (proc.lease.call proc.rconf now.sec c) := call_safe c h.ok
    exact ⟨h.commit_safe now hsafe, hsafe.asserted⟩
  | handleTimeout event =>
    by_cases hposted : event ∈ proc.posted
    · have hsafe := handleTimeout_safe h hnodup hposted (hfresh event rfl hposted)
      have h' : TimerInv tr { proc with posted := proc.posted.erase event } := by
        refine ⟨h.ok.mono live_of_live_erase live_of_live_erase, fun hon => ?_⟩
        have hoff := h.once hon
        simp only [queued, Bool.and_eq_false_iff] at hoff ⊢
        refine hoff.imp_left fun hnot => ?_
        simp only [List.contains_eq_mem, decide_eq_false_iff_not] at hnot ⊢
        exact fun hmem => hnot (List.mem_of_mem_erase hmem)
      simp only [step, if_pos hposted]
      exact ⟨h'.commit_safe now hsafe, hsafe.asserted⟩
    · simp only [step, if_neg hposted]
      exact ⟨h.idle, by simp⟩
  | expire event =>
    simp only [step]
    cases hkey : proc.timer.key event with
    | none => exact ⟨h.idle, by simp⟩
    | some mtKey =>
      have hon : proc.timer.timerOn event = true := by simp [CTimer.timerOn, hkey]
      dsimp only
      split
      · refine ⟨⟨?_, fun harmed => ?_⟩, by simp⟩
        · rw [live_expire _ hon, live_expire _ hon]
          exact h.ok
        · by_cases heq : TimerEvent.extTimer = event
          · simp [heq] at harmed
          · have hne : Effect.postTimeout .extTimer ≠ Effect.postTimeout event := by simpa using heq
            have hoff := h.once (by simpa [heq] using harmed)
            simpa [queued, cancelled, heq, List.mem_erase_of_ne heq] using hoff
      · exact ⟨h.idle, by simp⟩

end Runs

theorem timerInv_init (rconf : ReplicatedConfig) (now : CTimeValue) (mem : PLeaseProposer) :
    TimerInv [] (machine rconf now mem).init.process := by
  refine ⟨⟨?_, ?_⟩, ?_⟩
  · simp [machine, init, PaxosLease.init, PLeaseProposer.init, PLeaseProposerState.init]
  · simp [machine, init, PaxosLease.init, PLeaseProposer.init, PLeaseProposerState.init, live,
      queued, CTimer.timerOn_add, idleTime]
    simp [CTimer.timerOn, CTimer.key]
  · simp [machine, init, queued]

theorem timerInv_run (rconf : ReplicatedConfig) (now : CTimeValue) (mem : PLeaseProposer)
    (labels : List Label) (hfresh : FreshTimeouts ((machine rconf now mem).trace labels)) :
    TimerInv ((machine rconf now mem).trace labels) ((machine rconf now mem).run labels).process ∧
    ((machine rconf now mem).run labels).process.posted.Nodup ∧
    ExtendAsserted ((machine rconf now mem).trace labels) := by
  refine (machine rconf now mem).invariant (C := FreshTimeouts)
    (P := fun tr s => TimerInv tr s.process ∧ s.process.posted.Nodup ∧ ExtendAsserted tr)
    (fun _ _ h => h.2) ⟨timerInv_init rconf now mem, ?_, ?_⟩ ?_ labels hfresh
  · simp [machine, init]
  · simp [ExtendAsserted]
  rintro labels label hfresh ⟨hinv, hnodup, hassert⟩
  cases label with
  | tick now' =>
    refine ⟨hinv.idle, hnodup, fun st hst => ?_⟩
    rcases List.mem_cons.mp hst with rfl | hst
    · simp [machine]
    · exact hassert st hst
  | node op =>
    have hstep := step_timers hinv hnodup ((machine rconf now mem).run labels).clock op
      (fun event hop hposted => by simpa [runsCancelled, hop, hposted] using hfresh.1)
      ((machine rconf now mem).run labels) ((machine rconf now mem).run (.node op :: labels))
      (.node op)
    refine ⟨hstep.1, step_posted_nodup _ op hnodup, fun st hst => ?_⟩
    rcases List.mem_cons.mp hst with rfl | hst
    · exact hstep.2
    · exact hassert st hst

/-- The assertion in the extend handler holds throughout every run in which no
handler runs after `Delete` was called on its event. -/
theorem extendAsserted_of_fresh (rconf : ReplicatedConfig) (now : CTimeValue)
    (mem : PLeaseProposer) (labels : List Label)
    (hfresh : FreshTimeouts ((machine rconf now mem).trace labels)) :
    ExtendAsserted ((machine rconf now mem).trace labels) :=
  (timerInv_run rconf now mem labels hfresh).2.2

/-- The only node of its cluster is ready to acquire the lease at second 1000. -/
def lonely : Machine Clocked Label (List Effect) := machine ⟨0, 1, 0⟩ (.ofSec 1000) .zeroed

/-- It acquires the lease and, ten seconds later, extends it. -/
def extended : List Label :=
  [.node (.handleTimeout .extTimer), .node (.expire .extTimer), .tick (.ofSec 1010),
    .node (.onRead ⟨.proposeAccepted, 0, 16777216, 0, 0, 0, 0, 0⟩),
    .node (.onRead ⟨.prepareCurrentlyOpen, 0, 16777216, 0, 0, 0, 0, 0⟩),
    .node (.call .acquireLease)]

theorem extendAsserted_extended :
    Effect.assert .onExtendLeaseTimeout true ∈ (lonely.stepAfter extended.tail
      (.node (.handleTimeout .extTimer))).output ∧
    ExtendAsserted (lonely.trace extended) := by
  exact ⟨by decide, extendAsserted_of_fresh _ _ _ _ (by decide)⟩

/-- The acquire timer runs out and is posted just before the acceptance is handled,
and its handler runs just after: the round it starts is under way when the extend
timer fires. -/
def outrun : List Label :=
  [.node (.handleTimeout .extTimer), .node (.expire .extTimer), .tick (.ofSec 1030),
    .node (.handleTimeout .acqTimer),
    .node (.onRead ⟨.proposeAccepted, 0, 16777216, 0, 0, 0, 0, 0⟩),
    .node (.expire .acqTimer), .tick (.ofSec 1020),
    .node (.onRead ⟨.prepareCurrentlyOpen, 0, 16777216, 0, 0, 0, 0, 0⟩),
    .node (.call .acquireLease)]

theorem not_extendAsserted : ¬ ExtendAsserted (lonely.trace outrun) := by
  unfold ExtendAsserted
  decide

end Process

end PL
