-- SUMMARY: The PaxosLease proposer: its handlers and everything one call of them can do.
import NetworkEtc.Library.Machine
import NetworkEtc.PL.Effect

/-!
# `PLeaseProposer`

The proposer runs rounds. In a round it asks all nodes to prepare a new proposal
id, and if a majority promises and nobody else holds the lease, it proposes itself
as the owner; when a majority has accepted, it tells everyone to learn the lease.
It remembers only how many answers it has counted, not who sent them.
-/

namespace PL

open Library

structure PLeaseProposerState where
  preparing : Bool
  proposing : Bool
  proposalID : UInt64
  highestReceivedProposalID : UInt64
  leaseOwner : UInt32
  duration : UInt32
  expireTime : UInt64
  deriving DecidableEq, Repr

/-- `Init` leaves `leaseOwner` as the memory has it. -/
def PLeaseProposerState.init (state : PLeaseProposerState) : PLeaseProposerState :=
  { state with
    preparing := false
    proposing := false
    proposalID := 0
    highestReceivedProposalID := 0
    duration := 0
    expireTime := 0 }

/-- The counters are `unsigned` in the source; a round ends before one of them
passes the number of nodes. -/
structure PLeaseProposer where
  highestProposalID : UInt64
  state : PLeaseProposerState
  msg : PLeaseMsg
  numReceived : Nat
  numAccepted : Nat
  numRejected : Nat
  deriving DecidableEq, Repr

namespace PLeaseProposer

/-- `Init` on a proposer whose memory holds `mem`. -/
def init (mem : PLeaseProposer) : PLeaseProposer :=
  { mem with highestProposalID := 0, state := mem.state.init }

/-- Memory full of zeros. -/
def zeroed : PLeaseProposer where
  highestProposalID := 0
  state := ⟨false, false, 0, 0, 0, 0, 0⟩
  msg := ⟨.prepareRequest, 0, 0, 0, 0, 0, 0, 0⟩
  numReceived := 0
  numAccepted := 0
  numRejected := 0

def broadcastMessage (p : PLeaseProposer) : PLeaseProposer × List Effect :=
  ({ p with numReceived := 0, numAccepted := 0, numRejected := 0 }, [.broadcastMessage p.msg])

def startPreparing (rconf : ReplicatedConfig) (p : PLeaseProposer) :
    PLeaseProposer × List Effect :=
  let state :=
    { p.state with
      proposing := false
      preparing := true
      leaseOwner := rconf.nodeID
      highestReceivedProposalID := 0
      proposalID := rconf.nextHighest p.highestProposalID }
  let highestProposalID :=
    if state.proposalID > p.highestProposalID then state.proposalID else p.highestProposalID
  let msg := p.msg.prepareRequest rconf.nodeID state.proposalID rconf.getPaxosID
  andThen
    ({ p with state := state, highestProposalID := highestProposalID, msg := msg },
      [.timerAdd .acqTimer acquireLeaseTimeout])
    broadcastMessage

def startProposing (rconf : ReplicatedConfig) (now : UInt64) (p : PLeaseProposer) :
    PLeaseProposer × List Effect :=
  let p := { p with state.preparing := false }
  if p.state.leaseOwner ≠ rconf.nodeID then
    (p, []) -- no point in getting someone else a lease, wait for `onAcquireLeaseTimeout`
  else
    let state :=
      { p.state with
        proposing := true
        duration := maxLeaseTime
        expireTime := now + maxLeaseTime.toUInt64 }
    let msg := p.msg.proposeRequest rconf.nodeID state.proposalID state.leaseOwner state.duration
    broadcastMessage { p with state := state, msg := msg }

/-- The counting part of `OnPrepareResponse`. -/
def countPrepareResponse (p : PLeaseProposer) : PLeaseProposer :=
  let p := { p with numReceived := p.numReceived + 1 }
  if p.msg.type = .prepareRejected then
    { p with numRejected := p.numRejected + 1 }
  else if p.msg.type = .preparePreviouslyAccepted ∧
      p.msg.acceptedProposalID ≥ p.state.highestReceivedProposalID then
    { p with
      state.highestReceivedProposalID := p.msg.acceptedProposalID
      state.leaseOwner := p.msg.leaseOwner }
  else p

def onPrepareResponse (rconf : ReplicatedConfig) (now : UInt64) (p : PLeaseProposer) :
    PLeaseProposer × List Effect :=
  if p.state.preparing = false ∨ p.msg.proposalID ≠ p.state.proposalID then (p, [])
  else
    let p := p.countPrepareResponse
    if p.numRejected ≥ rconf.rejectMajority then startPreparing rconf p
    else if p.numReceived - p.numRejected ≥ rconf.minMajority then startProposing rconf now p
    else (p, [])

/-- The counting part of `OnProposeResponse`. -/
def countProposeResponse (p : PLeaseProposer) : PLeaseProposer :=
  let p := { p with numReceived := p.numReceived + 1 }
  if p.msg.type = .proposeAccepted then { p with numAccepted := p.numAccepted + 1 } else p

/-- The end of a round that a majority has accepted. -/
def learn (rconf : ReplicatedConfig) (now : UInt64) (p : PLeaseProposer) :
    PLeaseProposer × List Effect :=
  let left := p.state.expireTime - now
  let p := { p with state.proposing := false }
  let p := { p with
    msg := p.msg.learnChosen rconf.nodeID p.state.leaseOwner left.toUInt32 p.state.expireTime }
  andThen (p, [.timerDelete .acqTimer, .timerAdd .extTimer (left / 7)]) broadcastMessage

def onProposeResponse (rconf : ReplicatedConfig) (now : UInt64) (p : PLeaseProposer) :
    PLeaseProposer × List Effect :=
  if p.state.expireTime < now then (p, []) -- already expired, wait for timer
  else if p.state.proposing = false ∨ p.msg.proposalID ≠ p.state.proposalID then (p, [])
  else
    let p := p.countProposeResponse
    if p.numAccepted ≥ rconf.minMajority ∧ p.state.expireTime - now > 500 then learn rconf now p
    else if p.numReceived = rconf.numNodes.toNat then startPreparing rconf p
    else (p, [])

def processMsg (rconf : ReplicatedConfig) (now : UInt64) (p : PLeaseProposer) (msg_ : PLeaseMsg) :
    PLeaseProposer × List Effect :=
  let p := { p with msg := msg_ }
  if p.msg.isPrepareResponse then onPrepareResponse rconf now p
  else if p.msg.isProposeResponse then onProposeResponse rconf now p
  else (p, [.assert .processMsg false])

def startAcquireLease (rconf : ReplicatedConfig) (p : PLeaseProposer) :
    PLeaseProposer × List Effect :=
  andThen (p, [.timerDelete .extTimer]) fun p =>
    if !(p.state.preparing || p.state.proposing) then startPreparing rconf p else (p, [])

def stopAcquireLease (p : PLeaseProposer) : PLeaseProposer × List Effect :=
  ({ p with state.preparing := false, state.proposing := false },
    [.timerDelete .extTimer, .timerDelete .acqTimer])

def onAcquireLeaseTimeout (rconf : ReplicatedConfig) (p : PLeaseProposer) :
    PLeaseProposer × List Effect :=
  startPreparing rconf p

def onExtendLeaseTimeout (rconf : ReplicatedConfig) (p : PLeaseProposer) :
    PLeaseProposer × List Effect :=
  andThen (p, [.assert .onExtendLeaseTimeout (!(p.state.preparing || p.state.proposing))])
    (startPreparing rconf)

/-- What `PaxosLease::OnRead` does with the id of a request. -/
def bumpHighest (p : PLeaseProposer) (proposalID : UInt64) : PLeaseProposer :=
  if proposalID > p.highestProposalID then { p with highestProposalID := proposalID } else p

-- ---------------------------------------------------------------------------
-- Fields
-- ---------------------------------------------------------------------------

section Fields

variable (rconf : ReplicatedConfig) (now : UInt64) (p : PLeaseProposer)

@[simp] theorem countPrepareResponse_highestProposalID :
    p.countPrepareResponse.highestProposalID = p.highestProposalID := by
  unfold countPrepareResponse; dsimp only; split <;> [rfl; split <;> rfl]

@[simp] theorem countPrepareResponse_preparing :
    p.countPrepareResponse.state.preparing = p.state.preparing := by
  unfold countPrepareResponse; dsimp only; split <;> [rfl; split <;> rfl]

@[simp] theorem countPrepareResponse_proposing :
    p.countPrepareResponse.state.proposing = p.state.proposing := by
  unfold countPrepareResponse; dsimp only; split <;> [rfl; split <;> rfl]

@[simp] theorem countPrepareResponse_proposalID :
    p.countPrepareResponse.state.proposalID = p.state.proposalID := by
  unfold countPrepareResponse; dsimp only; split <;> [rfl; split <;> rfl]

@[simp] theorem countPrepareResponse_numAccepted :
    p.countPrepareResponse.numAccepted = p.numAccepted := by
  unfold countPrepareResponse; dsimp only; split <;> [rfl; split <;> rfl]

@[simp] theorem countProposeResponse_highestProposalID :
    p.countProposeResponse.highestProposalID = p.highestProposalID := by
  unfold countProposeResponse; dsimp only; split <;> rfl

@[simp] theorem countProposeResponse_state : p.countProposeResponse.state = p.state := by
  unfold countProposeResponse; dsimp only; split <;> rfl

@[simp] theorem startPreparing_state :
    (startPreparing rconf p).1.state =
      { p.state with
        proposing := false
        preparing := true
        leaseOwner := rconf.nodeID
        highestReceivedProposalID := 0
        proposalID := rconf.nextHighest p.highestProposalID } := rfl

@[simp] theorem startPreparing_effects :
    (startPreparing rconf p).2 =
      [.timerAdd .acqTimer acquireLeaseTimeout,
        .broadcastMessage (p.msg.prepareRequest rconf.nodeID
          (rconf.nextHighest p.highestProposalID) rconf.getPaxosID)] := rfl

@[simp] theorem startPreparing_numReceived : (startPreparing rconf p).1.numReceived = 0 := rfl

@[simp] theorem startPreparing_numRejected : (startPreparing rconf p).1.numRejected = 0 := rfl

/-- A new round is above every id the proposer knew. -/
theorem startPreparing_highestProposalID (h : roundOf p.highestProposalID + 1 < 2 ^ 40) :
    (startPreparing rconf p).1.highestProposalID = rconf.nextHighest p.highestProposalID :=
  if_pos (rconf.lt_nextHighest h)

theorem highestProposalID_le_bumpHighest (proposalID : UInt64) :
    p.highestProposalID ≤ (p.bumpHighest proposalID).highestProposalID := by
  unfold bumpHighest
  split
  · rename_i h
    exact UInt64.le_of_lt h
  · exact UInt64.le_refl _

theorem le_bumpHighest (proposalID : UInt64) :
    proposalID ≤ (p.bumpHighest proposalID).highestProposalID := by
  unfold bumpHighest
  split
  · exact UInt64.le_refl _
  · rename_i h
    exact UInt64.not_lt.mp h

@[simp] theorem bumpHighest_state (proposalID : UInt64) :
    (p.bumpHighest proposalID).state = p.state := by
  unfold bumpHighest; split <;> rfl

@[simp] theorem bumpHighest_numReceived (proposalID : UInt64) :
    (p.bumpHighest proposalID).numReceived = p.numReceived := by
  unfold bumpHighest; split <;> rfl

@[simp] theorem bumpHighest_numAccepted (proposalID : UInt64) :
    (p.bumpHighest proposalID).numAccepted = p.numAccepted := by
  unfold bumpHighest; split <;> rfl

@[simp] theorem bumpHighest_numRejected (proposalID : UInt64) :
    (p.bumpHighest proposalID).numRejected = p.numRejected := by
  unfold bumpHighest; split <;> rfl

end Fields

-- ---------------------------------------------------------------------------
-- What an answer can do
-- ---------------------------------------------------------------------------

/-- Everything an answer can do to the proposer. In each case that counts it, the
answer is for the current proposal and the phase it belongs to is under way. -/
inductive Outcome (rconf : ReplicatedConfig) (now : UInt64) (p : PLeaseProposer)
    (msg : PLeaseMsg) : PLeaseProposer → List Effect → Prop
  | skipped (effects : List Effect) (hes : effects = [] ∨ effects = [.assert .processMsg false])
      (hskip : msg.isPrepareResponse = true → p.state.preparing = true →
        msg.proposalID ≠ p.state.proposalID) :
      Outcome rconf now p msg { p with msg := msg } effects
  | prepareCounted (hresp : msg.isPrepareResponse = true) (hprep : p.state.preparing = true)
      (hid : msg.proposalID = p.state.proposalID) :
      Outcome rconf now p msg (countPrepareResponse { p with msg := msg }) []
  | prepareRestarted (hresp : msg.isPrepareResponse = true) (hprep : p.state.preparing = true)
      (hid : msg.proposalID = p.state.proposalID) :
      Outcome rconf now p msg
        (startPreparing rconf (countPrepareResponse { p with msg := msg })).1
        (startPreparing rconf (countPrepareResponse { p with msg := msg })).2
  | gaveUp (hresp : msg.isPrepareResponse = true) (hprep : p.state.preparing = true)
      (hid : msg.proposalID = p.state.proposalID) :
      Outcome rconf now p msg
        { countPrepareResponse { p with msg := msg } with state.preparing := false } []
  | proposed (hresp : msg.isPrepareResponse = true) (hprep : p.state.preparing = true)
      (hid : msg.proposalID = p.state.proposalID)
      (hmaj : rconf.minMajority ≤ (countPrepareResponse { p with msg := msg }).numReceived -
        (countPrepareResponse { p with msg := msg }).numRejected)
      (howner : (countPrepareResponse { p with msg := msg }).state.leaseOwner = rconf.nodeID) :
      Outcome rconf now p msg
        { countPrepareResponse { p with msg := msg } with
          state.preparing := false
          state.proposing := true
          state.duration := maxLeaseTime
          state.expireTime := now + maxLeaseTime.toUInt64
          msg := (countPrepareResponse { p with msg := msg }).msg.proposeRequest rconf.nodeID
            p.state.proposalID rconf.nodeID maxLeaseTime
          numReceived := 0
          numAccepted := 0
          numRejected := 0 }
        [.broadcastMessage ((countPrepareResponse { p with msg := msg }).msg.proposeRequest
          rconf.nodeID p.state.proposalID rconf.nodeID maxLeaseTime)]
  | proposeCounted (hresp : msg.isProposeResponse = true) (hprop : p.state.proposing = true)
      (hid : msg.proposalID = p.state.proposalID) :
      Outcome rconf now p msg (countProposeResponse { p with msg := msg }) []
  | proposeRestarted (hresp : msg.isProposeResponse = true) (hprop : p.state.proposing = true)
      (hid : msg.proposalID = p.state.proposalID) :
      Outcome rconf now p msg
        (startPreparing rconf (countProposeResponse { p with msg := msg })).1
        (startPreparing rconf (countProposeResponse { p with msg := msg })).2
  | learned (hresp : msg.isProposeResponse = true) (hprop : p.state.proposing = true)
      (hid : msg.proposalID = p.state.proposalID)
      (hmaj : rconf.minMajority ≤ (countProposeResponse { p with msg := msg }).numAccepted)
      (hlive : ¬ p.state.expireTime < now) :
      Outcome rconf now p msg
        (learn rconf now (countProposeResponse { p with msg := msg })).1
        (learn rconf now (countProposeResponse { p with msg := msg })).2

theorem onPrepareResponse_outcome (rconf : ReplicatedConfig) (now : UInt64) (p : PLeaseProposer)
    (msg : PLeaseMsg) (hresp : msg.isPrepareResponse = true) :
    Outcome rconf now p msg (onPrepareResponse rconf now { p with msg := msg }).1
      (onPrepareResponse rconf now { p with msg := msg }).2 := by
  unfold onPrepareResponse
  dsimp only
  split
  · rename_i hinactive
    refine .skipped [] (.inl rfl) fun _ hprep => ?_
    simpa [hprep] using hinactive
  rename_i hactive
  have hprep : p.state.preparing = true := by
    by_contra hne
    exact hactive (.inl (by simpa using hne))
  have hid : msg.proposalID = p.state.proposalID := by
    by_contra hne
    exact hactive (.inr hne)
  split
  · exact .prepareRestarted hresp hprep hid
  split
  · rename_i hmaj
    unfold startProposing
    dsimp only
    split
    · exact .gaveUp hresp hprep hid
    · rename_i howner
      have howner' := of_not_not howner
      have hout : Outcome rconf now p msg _ _ := .proposed hresp hprep hid hmaj howner'
      simp only [broadcastMessage, howner', countPrepareResponse_proposalID]
      simpa [howner'] using hout
  · exact .prepareCounted hresp hprep hid

theorem onProposeResponse_outcome (rconf : ReplicatedConfig) (now : UInt64) (p : PLeaseProposer)
    (msg : PLeaseMsg) (hresp : msg.isProposeResponse = true) :
    Outcome rconf now p msg (onProposeResponse rconf now { p with msg := msg }).1
      (onProposeResponse rconf now { p with msg := msg }).2 := by
  have hother : ¬ msg.isPrepareResponse = true := msg.not_isPrepareResponse hresp
  unfold onProposeResponse
  dsimp only
  split
  · exact .skipped [] (.inl rfl) fun h => absurd h hother
  rename_i hlive
  split
  · exact .skipped [] (.inl rfl) fun h => absurd h hother
  rename_i hactive
  have hprop : p.state.proposing = true := by
    by_contra hne
    exact hactive (.inl (by simpa using hne))
  have hid : msg.proposalID = p.state.proposalID := by
    by_contra hne
    exact hactive (.inr hne)
  split
  · rename_i hmaj
    exact .learned hresp hprop hid hmaj.1 hlive
  split
  · exact .proposeRestarted hresp hprop hid
  · exact .proposeCounted hresp hprop hid

theorem processMsg_outcome (rconf : ReplicatedConfig) (now : UInt64) (p : PLeaseProposer)
    (msg : PLeaseMsg) :
    Outcome rconf now p msg (processMsg rconf now p msg).1 (processMsg rconf now p msg).2 := by
  unfold processMsg
  dsimp only
  split
  · rename_i hresp
    exact onPrepareResponse_outcome rconf now p msg hresp
  rename_i hother
  split
  · rename_i hresp
    exact onProposeResponse_outcome rconf now p msg hresp
  · exact .skipped _ (.inr rfl) fun h => absurd h hother

end PLeaseProposer

end PL
