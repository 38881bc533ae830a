-- SUMMARY: What the handlers of a node ask of its timers and its session, in program order.
import NetworkEtc.PL.Config

/-!
# Effects

No handler of the lease reads the timers or the session it writes to. A handler
is therefore a function from the old state to the new one together with the list
of calls it makes on them, in the order in which the code makes them.
-/

namespace PL

/-- The timer events of a node: two of the proposer, one each of the acceptor and
the learner, and the idle timers of the session. -/
inductive TimerEvent where
  | acqTimer
  | extTimer
  | acceptorLeaseTimer
  | learnerLeaseTimer
  | sessionRead
  | sessionWrite
  deriving DecidableEq, Repr

/-- The assertions of the handlers. -/
inductive AssertSite where
  | processMsg
  | onExtendLeaseTimeout
  deriving DecidableEq, Repr

inductive Effect where
  /-- `CTimer::Add`, the time in milliseconds. -/
  | timerAdd (event : TimerEvent) (auTime : UInt64)
  /-- `CTimer::Delete` -/
  | timerDelete (event : TimerEvent)
  /-- `CIoEvent::PostTimeout` -/
  | postTimeout (event : TimerEvent)
  /-- The writes of `PLeaseProposer::BroadcastMessage`, one for every node. -/
  | broadcastMessage (msg : PLeaseMsg)
  /-- `PLeaseAcceptor::SendReply` -/
  | sendReply (nodeID : UInt32) (msg : PLeaseMsg)
  | assert (site : AssertSite) (holds : Bool)
  deriving DecidableEq, Repr

/-- Run `f` where `r` ended, after the calls `r` made. -/
def andThen {σ : Type} (r : σ × List Effect) (f : σ → σ × List Effect) : σ × List Effect :=
  ((f r.1).1, r.2 ++ (f r.1).2)

@[simp] theorem andThen_fst {σ : Type} (r : σ × List Effect) (f : σ → σ × List Effect) :
    (andThen r f).1 = (f r.1).1 := rfl

@[simp] theorem andThen_snd {σ : Type} (r : σ × List Effect) (f : σ → σ × List Effect) :
    (andThen r f).2 = r.2 ++ (f r.1).2 := rfl

namespace Effect

/-- The message an effect writes to the session, if it writes one. -/
def msg? : Effect → Option PLeaseMsg
  | broadcastMessage msg => some msg
  | sendReply _ msg => some msg
  | _ => none

/-- The message an effect broadcasts, if it broadcasts one. -/
def broadcast? : Effect → Option PLeaseMsg
  | broadcastMessage msg => some msg
  | _ => none

end Effect

/-- The messages written by a list of effects, in order. -/
def sentMsgs (effects : List Effect) : List PLeaseMsg := effects.filterMap Effect.msg?

/-- The messages broadcast by a list of effects, in order. -/
def broadcasts (effects : List Effect) : List PLeaseMsg := effects.filterMap Effect.broadcast?

@[simp] theorem sentMsgs_nil : sentMsgs [] = [] := rfl

@[simp] theorem broadcasts_nil : broadcasts [] = [] := rfl

@[simp] theorem broadcasts_broadcastMessage (msg : PLeaseMsg) (es : List Effect) :
    broadcasts (.broadcastMessage msg :: es) = msg :: broadcasts es := rfl

@[simp] theorem broadcasts_timerAdd (event : TimerEvent) (auTime : UInt64) (es : List Effect) :
    broadcasts (.timerAdd event auTime :: es) = broadcasts es := rfl

@[simp] theorem broadcasts_timerDelete (event : TimerEvent) (es : List Effect) :
    broadcasts (.timerDelete event :: es) = broadcasts es := rfl

@[simp] theorem broadcasts_sendReply (nodeID : UInt32) (msg : PLeaseMsg) (es : List Effect) :
    broadcasts (.sendReply nodeID msg :: es) = broadcasts es := rfl

@[simp] theorem broadcasts_assert (site : AssertSite) (holds : Bool) (es : List Effect) :
    broadcasts (.assert site holds :: es) = broadcasts es := rfl

@[simp] theorem broadcasts_append (es es' : List Effect) :
    broadcasts (es ++ es') = broadcasts es ++ broadcasts es' := List.filterMap_append

theorem mem_broadcasts {es : List Effect} {msg : PLeaseMsg} :
    msg ∈ broadcasts es ↔ Effect.broadcastMessage msg ∈ es := by
  simp only [broadcasts, List.mem_filterMap]
  constructor
  · rintro ⟨e, he, heq⟩
    cases e <;> simp_all [Effect.broadcast?]
  · intro h
    exact ⟨_, h, rfl⟩

end PL
