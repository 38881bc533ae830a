-- SUMMARY: The lease object of a node: the learner, and the dispatch of messages, timeouts and calls.
import NetworkEtc.PL.Acceptor
import NetworkEtc.PL.Proposer

/-!
# `PLeaseLearner` and `PaxosLease`

`PaxosLease` holds the three roles of a node and passes messages to them. The
learner calls back into it: a lease that runs out restarts the proposer, and a
lease learned for another node stops it. A handler can therefore touch all three
roles in one call.
-/

namespace PL

structure PLeaseLearnerState where
  learned : Bool
  leaseOwner : UInt32
  expireTime : UInt64
  leaseEpoch : UInt64
  deriving DecidableEq, Repr

namespace PLeaseLearnerState

def init : PLeaseLearnerState := ⟨false, 0, 0, 0⟩

def onLeaseTimeout (state : PLeaseLearnerState) : PLeaseLearnerState :=
  ⟨false, 0, 0, state.leaseEpoch + 1⟩

end PLeaseLearnerState

structure PaxosLease where
  acquireLease : Bool
  proposer : PLeaseProposer
  acceptor : PLeaseAcceptorState
  learner : PLeaseLearnerState
  deriving DecidableEq, Repr

namespace PaxosLease

/-- `Init` on an object whose proposer's memory holds `mem`. -/
def init (mem : PLeaseProposer) : PaxosLease := ⟨false, mem.init, .init, .init⟩

/-- Let the proposer run a call of its own. -/
def withProposer (lease : PaxosLease) (r : PLeaseProposer × List Effect) :
    PaxosLease × List Effect :=
  ({ lease with proposer := r.1 }, r.2)

def onLeaseTimeout (rconf : ReplicatedConfig) (lease : PaxosLease) : PaxosLease × List Effect :=
  if lease.acquireLease then lease.withProposer (lease.proposer.startAcquireLease rconf)
  else (lease, [])

end PaxosLease

namespace PLeaseLearner

variable (rconf : ReplicatedConfig) (now : UInt64)

def onLeaseTimeout (lease : PaxosLease) : PaxosLease × List Effect :=
  andThen ({ lease with learner := lease.learner.onLeaseTimeout }, [.timerDelete .learnerLeaseTimer])
    (PaxosLease.onLeaseTimeout rconf)

def checkLease (lease : PaxosLease) : PaxosLease × List Effect :=
  if lease.learner.learned && decide (lease.learner.expireTime < now) then
    onLeaseTimeout rconf lease
  else (lease, [])

/-- The answer, and what asking did. -/
def isLeaseOwner (lease : PaxosLease) : Bool × PaxosLease × List Effect :=
  let r := checkLease rconf now lease
  (r.1.learner.learned && r.1.learner.leaseOwner == rconf.nodeID, r)

/-- Who takes itself for the owner has learned so and the time is not over. -/
theorem of_isLeaseOwner {rconf : ReplicatedConfig} {now : UInt64} {lease : PaxosLease}
    (h : (isLeaseOwner rconf now lease).1 = true) :
    lease.learner.learned = true ∧ lease.learner.leaseOwner = rconf.nodeID ∧
      ¬ lease.learner.expireTime < now := by
  simp only [isLeaseOwner, checkLease] at h
  split at h
  · -- A lease that has run out is forgotten before the answer is given.
    have hforgot : (onLeaseTimeout rconf lease).1.learner.learned = false := by
      simp only [onLeaseTimeout, andThen_fst, PaxosLease.onLeaseTimeout]
      split <;> rfl
    simp [hforgot] at h
  · rename_i hlive
    simp only [Bool.and_eq_true, beq_iff_eq] at h
    refine ⟨h.1, h.2, fun hlt => hlive ?_⟩
    simp [h.1, hlt]

/-- The owner as the 32 bits of an `int`, `-1` if none is known, and what asking did. -/
def getLeaseOwner (lease : PaxosLease) : UInt32 × PaxosLease × List Effect :=
  let r := checkLease rconf now lease
  (if r.1.learner.learned then r.1.learner.leaseOwner else 0xFFFFFFFF, r)

/-- `PaxosLease::OnLearnLease`. The log asks for the owner first, to say so in its
trace. -/
def onLearnLease (lease : PaxosLease) : PaxosLease × List Effect :=
  andThen (checkLease rconf now lease) fun lease =>
    let r := isLeaseOwner rconf now lease
    andThen r.2 fun lease =>
      if !r.1 then lease.withProposer lease.proposer.stopAcquireLease else (lease, [])

/-- How long a learned lease is taken to last. -/
def learnedExpireTime (msg : PLeaseMsg) : UInt64 :=
  if msg.leaseOwner = rconf.nodeID then msg.localExpireTime -- I'm the master
  else now + msg.duration.toUInt64 - 500 -- conservative estimate

def onLearnChosen (lease : PaxosLease) (msg : PLeaseMsg) : PaxosLease × List Effect :=
  andThen (checkLease rconf now lease) fun lease =>
    let expireTime := learnedExpireTime rconf now msg
    if expireTime < now then (lease, [])
    else
      andThen
        ({ lease with
            learner :=
              { lease.learner with
                learned := true
                leaseOwner := msg.leaseOwner
                expireTime := expireTime } },
          [.timerAdd .learnerLeaseTimer expireTime])
        (onLearnLease rconf now)

end PLeaseLearner

namespace PaxosLease

variable (rconf : ReplicatedConfig) (now : UInt64)

/-- `acceptor.ProcessMsg`. `GetMaster` is evaluated, and may find the lease run out,
only for a prepare request of a node that is behind. -/
def acceptorProcessMsg (lease : PaxosLease) (msg : PLeaseMsg) : PaxosLease × List Effect :=
  let r : UInt32 × PaxosLease × List Effect :=
    if msg.type = .prepareRequest ∧ msg.paxosID < rconf.getPaxosID then
      PLeaseLearner.getLeaseOwner rconf now lease
    else (0xFFFFFFFF, lease, [])
  andThen r.2 fun lease =>
    let a := PLeaseAcceptor.processMsg rconf now r.1 lease.acceptor msg
    ({ lease with acceptor := a.1 }, a.2)

/-- `OnRead` of a datagram that holds `msg`. -/
def onRead (lease : PaxosLease) (msg : PLeaseMsg) : PaxosLease × List Effect :=
  let lease :=
    if msg.isRequest then { lease with proposer := lease.proposer.bumpHighest msg.proposalID }
    else lease
  if msg.isResponse then lease.withProposer (lease.proposer.processMsg rconf now msg)
  else if msg.isRequest then acceptorProcessMsg rconf now lease msg
  else PLeaseLearner.onLearnChosen rconf now lease msg

def acquire (lease : PaxosLease) : PaxosLease × List Effect :=
  let lease := { lease with acquireLease := true }
  lease.withProposer (lease.proposer.startAcquireLease rconf)

/-- The handlers of the timer events. Those of the session only write a line to
the log. -/
def handleTimeout (lease : PaxosLease) : TimerEvent → PaxosLease × List Effect
  | .acqTimer => lease.withProposer (lease.proposer.onAcquireLeaseTimeout rconf)
  | .extTimer => lease.withProposer (lease.proposer.onExtendLeaseTimeout rconf)
  | .acceptorLeaseTimer =>
    ({ lease with acceptor := PLeaseAcceptor.onLeaseTimeout lease.acceptor }, [])
  | .learnerLeaseTimer => PLeaseLearner.onLeaseTimeout rconf lease
  | .sessionRead | .sessionWrite => (lease, [])

/-- What a node is asked to do from outside. -/
inductive Call where
  | acquireLease
  | startAcquireLease
  | stopAcquireLease
  | isLeaseOwner
  deriving DecidableEq, Repr

def call (lease : PaxosLease) : Call → PaxosLease × List Effect
  | .acquireLease => lease.acquire rconf
  | .startAcquireLease => lease.withProposer (lease.proposer.startAcquireLease rconf)
  | .stopAcquireLease => lease.withProposer lease.proposer.stopAcquireLease
  | .isLeaseOwner => (PLeaseLearner.isLeaseOwner rconf now lease).2

end PaxosLease

end PL
