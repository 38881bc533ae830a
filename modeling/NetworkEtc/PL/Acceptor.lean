-- SUMMARY: The PaxosLease acceptor: its handlers, the promise it keeps, and what it does to the accepted id.
import NetworkEtc.Library.Machine
import NetworkEtc.PL.Effect

/-!
# `PLeaseAcceptor`

The acceptor answers prepare requests with a promise and propose requests with an
acceptance. It forgets an accepted lease when its timer runs out, and also when a
request finds that the lease has expired by the clock.
-/

namespace PL

open Library

structure PLeaseAcceptorState where
  promisedProposalID : UInt64
  accepted : Bool
  acceptedProposalID : UInt64
  acceptedLeaseOwner : UInt32
  acceptedDuration : UInt32
  acceptedExpireTime : UInt64
  deriving DecidableEq, Repr

namespace PLeaseAcceptorState

def init : PLeaseAcceptorState where
  promisedProposalID := 0
  accepted := false
  acceptedProposalID := 0
  acceptedLeaseOwner := 0
  acceptedDuration := 0
  acceptedExpireTime := 0

def onLeaseTimeout (state : PLeaseAcceptorState) : PLeaseAcceptorState :=
  { state with
    accepted := false
    acceptedProposalID := 0
    acceptedLeaseOwner := 0
    acceptedDuration := 0
    acceptedExpireTime := 0 }

end PLeaseAcceptorState

namespace PLeaseAcceptor

/-- An accepted lease whose time is over at `now`. -/
def expired (state : PLeaseAcceptorState) (now : UInt64) : Bool :=
  state.accepted && decide (state.acceptedExpireTime < now)

def onLeaseTimeout (state : PLeaseAcceptorState) : PLeaseAcceptorState := state.onLeaseTimeout

/-- The check both request handlers begin with. -/
def dropExpired (state : PLeaseAcceptorState) (now : UInt64) : PLeaseAcceptorState :=
  if expired state now then onLeaseTimeout state else state

/-- `master` is what `RLOG->GetMaster()` returns, as the 32 bits of its `int`. -/
def onPrepareRequest (rconf : ReplicatedConfig) (now : UInt64) (master : UInt32)
    (state : PLeaseAcceptorState) (msg : PLeaseMsg) : PLeaseAcceptorState × List Effect :=
  if msg.paxosID < rconf.getPaxosID ∧ msg.nodeID ≠ master then
    (state, []) -- only up-to-date nodes can become masters
  else
    let senderID := msg.nodeID
    let state := dropExpired state now
    if msg.proposalID < state.promisedProposalID then
      (state, [.sendReply senderID (msg.prepareRejected rconf.nodeID msg.proposalID)])
    else
      let state := { state with promisedProposalID := msg.proposalID }
      if !state.accepted then
        (state, [.sendReply senderID (msg.prepareCurrentlyOpen rconf.nodeID msg.proposalID)])
      else
        (state, [.sendReply senderID (msg.preparePreviouslyAccepted rconf.nodeID msg.proposalID
          state.acceptedProposalID state.acceptedLeaseOwner state.acceptedDuration)])

def onProposeRequest (rconf : ReplicatedConfig) (now : UInt64)
    (state : PLeaseAcceptorState) (msg : PLeaseMsg) : PLeaseAcceptorState × List Effect :=
  let senderID := msg.nodeID
  let state := dropExpired state now
  if msg.proposalID < state.promisedProposalID then
    (state, [.sendReply senderID (msg.proposeRejected rconf.nodeID msg.proposalID)])
  else
    ({ state with
        accepted := true
        acceptedProposalID := msg.proposalID
        acceptedLeaseOwner := msg.leaseOwner
        acceptedDuration := msg.duration
        acceptedExpireTime := msg.duration.toUInt64 + now },
      [.timerAdd .acceptorLeaseTimer msg.duration.toUInt64,
        .sendReply senderID (msg.proposeAccepted rconf.nodeID msg.proposalID)])

def processMsg (rconf : ReplicatedConfig) (now : UInt64) (master : UInt32)
    (state : PLeaseAcceptorState) (msg : PLeaseMsg) : PLeaseAcceptorState × List Effect :=
  if msg.type = .prepareRequest then onPrepareRequest rconf now master state msg
  else if msg.type = .proposeRequest then onProposeRequest rconf now state msg
  else (state, [.assert .processMsg false])

-- ---------------------------------------------------------------------------
-- What a request can do
-- ---------------------------------------------------------------------------

section Fields

variable (state : PLeaseAcceptorState) (now : UInt64)

@[simp] theorem onLeaseTimeout_promisedProposalID :
    (onLeaseTimeout state).promisedProposalID = state.promisedProposalID := rfl

@[simp] theorem onLeaseTimeout_accepted : (onLeaseTimeout state).accepted = false := rfl

@[simp] theorem dropExpired_promisedProposalID :
    (dropExpired state now).promisedProposalID = state.promisedProposalID := by
  unfold dropExpired; split <;> rfl

/-- What is still accepted after the check was accepted before it and has not
expired. -/
theorem dropExpired_accepted (h : (dropExpired state now).accepted = true) :
    dropExpired state now = state ∧ ¬ state.acceptedExpireTime < now := by
  unfold dropExpired at h ⊢
  split
  · rename_i hexp
    simp [hexp] at h
  · rename_i hexp
    simp only [hexp] at h
    refine ⟨rfl, ?_⟩
    simpa [expired, show state.accepted = true from h] using hexp

/-- A lease that has not expired survives the check. -/
theorem dropExpired_eq_self (h : ¬ state.acceptedExpireTime < now) :
    dropExpired state now = state := by
  simp [dropExpired, expired, h]

end Fields

/-- Everything a request can do to the acceptor: which state it leaves and which
calls it makes. -/
inductive Outcome (rconf : ReplicatedConfig) (now : UInt64) (state : PLeaseAcceptorState)
    (msg : PLeaseMsg) : PLeaseAcceptorState → List Effect → Prop
  | ignored (htype : msg.type = .prepareRequest) : Outcome rconf now state msg state []
  | unexpected (htype : msg.type ≠ .prepareRequest) (htype' : msg.type ≠ .proposeRequest) :
      Outcome rconf now state msg state [.assert .processMsg false]
  | prepareRejected (htype : msg.type = .prepareRequest)
      (h : msg.proposalID < state.promisedProposalID) :
      Outcome rconf now state msg (dropExpired state now)
        [.sendReply msg.nodeID (msg.prepareRejected rconf.nodeID msg.proposalID)]
  | currentlyOpen (htype : msg.type = .prepareRequest)
      (h : ¬ msg.proposalID < state.promisedProposalID)
      (hacc : (dropExpired state now).accepted = false) :
      Outcome rconf now state msg
        { dropExpired state now with promisedProposalID := msg.proposalID }
        [.sendReply msg.nodeID (msg.prepareCurrentlyOpen rconf.nodeID msg.proposalID)]
  | previouslyAccepted (htype : msg.type = .prepareRequest)
      (h : ¬ msg.proposalID < state.promisedProposalID)
      (hacc : (dropExpired state now).accepted = true) :
      Outcome rconf now state msg
        { state with promisedProposalID := msg.proposalID }
        [.sendReply msg.nodeID (msg.preparePreviouslyAccepted rconf.nodeID msg.proposalID
          state.acceptedProposalID state.acceptedLeaseOwner state.acceptedDuration)]
  | proposeRejected (htype : msg.type = .proposeRequest)
      (h : msg.proposalID < state.promisedProposalID) :
      Outcome rconf now state msg (dropExpired state now)
        [.sendReply msg.nodeID (msg.proposeRejected rconf.nodeID msg.proposalID)]
  | accepted (htype : msg.type = .proposeRequest)
      (h : ¬ msg.proposalID < state.promisedProposalID) :
      Outcome rconf now state msg
        { promisedProposalID := state.promisedProposalID
          accepted := true
          acceptedProposalID := msg.proposalID
          acceptedLeaseOwner := msg.leaseOwner
          acceptedDuration := msg.duration
          acceptedExpireTime := msg.duration.toUInt64 + now }
        [.timerAdd .acceptorLeaseTimer msg.duration.toUInt64,
          .sendReply msg.nodeID (msg.proposeAccepted rconf.nodeID msg.proposalID)]

theorem processMsg_outcome (rconf : ReplicatedConfig) (now : UInt64) (master : UInt32)
    (state : PLeaseAcceptorState) (msg : PLeaseMsg) :
    Outcome rconf now state msg (processMsg rconf now master state msg).1
      (processMsg rconf now master state msg).2 := by
  unfold processMsg
  split
  · rename_i htype
    unfold onPrepareRequest
    dsimp only
    rw [dropExpired_promisedProposalID]
    split
    · exact .ignored htype
    split
    · rename_i hlt
      exact .prepareRejected htype hlt
    rename_i hlt
    split
    · rename_i hacc
      exact .currentlyOpen htype hlt (by simpa using hacc)
    · rename_i hacc
      have hacc' : (dropExpired state now).accepted = true := by simpa using hacc
      have hself := (dropExpired_accepted state now hacc').1
      rw [hself]
      exact .previouslyAccepted htype hlt hacc'
  rename_i htype'
  split
  · rename_i htype
    unfold onProposeRequest
    dsimp only
    rw [dropExpired_promisedProposalID]
    split
    · rename_i hlt
      exact .proposeRejected htype hlt
    · rename_i hlt
      exact .accepted htype hlt
  · rename_i htype
    exact .unexpected htype' htype

-- ---------------------------------------------------------------------------
-- Runs of one acceptor
-- ---------------------------------------------------------------------------

/-- What one acceptor goes through: requests, the timeout of its lease timer, and
new readings of the clock. -/
inductive Op where
  | processMsg (msg : PLeaseMsg) (master : UInt32)
  | onLeaseTimeout
  | clock (now : UInt64)

/-- An acceptor and the clock it reads. -/
structure Clocked where
  now : UInt64
  state : PLeaseAcceptorState

def step (rconf : ReplicatedConfig) (s : Clocked) : Op → Clocked × List Effect
  | .processMsg msg master =>
    let r := processMsg rconf s.now master s.state msg
    ({ s with state := r.1 }, r.2)
  | .onLeaseTimeout => ({ s with state := onLeaseTimeout s.state }, [])
  | .clock now => ({ s with now := now }, [])

/-- The acceptor from its initial state. -/
def machine (rconf : ReplicatedConfig) (now : UInt64) : Machine Clocked Op (List Effect) where
  init := ⟨now, .init⟩
  step := step rconf

/-- An answer that lets a proposer go on: a promise or an acceptance. -/
def Grant (msg : PLeaseMsg) : Prop := msg.isPromise = true ∨ msg.type = .proposeAccepted

/-- One step never lowers the promise, a promise it sends is the new one, and it
grants nothing below the old one. -/
theorem step_promise (rconf : ReplicatedConfig) (s : Clocked) (op : Op) :
    s.state.promisedProposalID ≤ (step rconf s op).1.state.promisedProposalID ∧
    (∀ msg ∈ sentMsgs (step rconf s op).2, msg.isPromise = true →
      msg.proposalID = (step rconf s op).1.state.promisedProposalID) ∧
    (∀ msg ∈ sentMsgs (step rconf s op).2, Grant msg →
      s.state.promisedProposalID ≤ msg.proposalID) := by
  cases op with
  | onLeaseTimeout => simp [step]
  | clock now => simp [step]
  | processMsg msg master =>
    simp only [step]
    have hout := processMsg_outcome rconf s.now master s.state msg
    generalize processMsg rconf s.now master s.state msg = r at hout ⊢
    obtain ⟨state', effects⟩ := r
    dsimp only at hout ⊢
    cases hout <;>
      simp_all [sentMsgs, Effect.msg?, Grant, PLeaseMsg.isPromise, PLeaseMsg.init,
        PLeaseMsg.prepareRejected, PLeaseMsg.prepareCurrentlyOpen,
        PLeaseMsg.preparePreviouslyAccepted, PLeaseMsg.proposeRejected, PLeaseMsg.proposeAccepted,
        UInt64.not_lt]

/-- Every promise sent in a run is at most what is promised at its end. -/
theorem promise_le_promised (rconf : ReplicatedConfig) (now : UInt64) (ops : List Op) :
    ∀ st ∈ (machine rconf now).trace ops, ∀ msg ∈ sentMsgs st.output, msg.isPromise = true →
      msg.proposalID ≤ ((machine rconf now).run ops).state.promisedProposalID := by
  induction ops with
  | nil => simp
  | cons op ops ih =>
    intro st hst msg hmsg hprom
    obtain ⟨hmono, hnew, -⟩ := step_promise rconf ((machine rconf now).run ops) op
    rcases List.mem_cons.mp hst with rfl | hst
    · exact UInt64.le_of_eq (hnew msg hmsg hprom)
    · exact UInt64.le_trans (ih st hst msg hmsg hprom) hmono

/-- The promise is kept: in every run, after a positive answer to a prepare
request for `q` no prepare or propose request below `q` is granted. The lease
timeouts in between clear the accepted proposal and leave the promise alone. -/
theorem promise_kept (rconf : ReplicatedConfig) (now : UInt64) (ops : List Op) :
    ((machine rconf now).trace ops).Pairwise fun later earlier =>
      ∀ msg ∈ sentMsgs earlier.output, msg.isPromise = true →
        ∀ msg' ∈ sentMsgs later.output, Grant msg' → ¬ msg'.proposalID < msg.proposalID := by
  induction ops with
  | nil => exact List.Pairwise.nil
  | cons op ops ih =>
    refine List.Pairwise.cons ?_ ih
    intro earlier hearlier msg hmsg hprom msg' hmsg' hgrant
    have hle := promise_le_promised rconf now ops earlier hearlier msg hmsg hprom
    have hge := (step_promise rconf ((machine rconf now).run ops) op).2.2 msg' hmsg' hgrant
    exact UInt64.not_lt.mpr (UInt64.le_trans hle hge)

-- ---------------------------------------------------------------------------
-- The accepted id
-- ---------------------------------------------------------------------------

/-- The accepted id stays below the promise, and does not go down while a lease is
accepted. -/
def AcceptedIDOrdered (tr : List (Step Clocked Op (List Effect))) : Prop :=
  ∀ st ∈ tr,
    (st.post.state.accepted = true →
      st.post.state.acceptedProposalID ≤ st.post.state.promisedProposalID) ∧
    (st.pre.state.accepted = true → st.post.state.accepted = true →
      st.pre.state.acceptedProposalID ≤ st.post.state.acceptedProposalID)

/-- A propose request in the run never asks for more than the acceptor has
promised by then. -/
def ProposesPrepared (tr : List (Step Clocked Op (List Effect))) : Prop :=
  ∀ st ∈ tr, ∀ msg master, st.input = .processMsg msg master → msg.type = .proposeRequest →
    msg.proposalID ≤ st.pre.state.promisedProposalID

/-- A step that accepts nothing beyond the promise keeps the accepted id in
order. -/
theorem step_acceptedID_ordered (rconf : ReplicatedConfig) (s : Clocked) (op : Op)
    (hinv : s.state.accepted = true → s.state.acceptedProposalID ≤ s.state.promisedProposalID)
    (hop : ∀ msg master, op = .processMsg msg master → msg.type = .proposeRequest →
      msg.proposalID ≤ s.state.promisedProposalID) :
    ((step rconf s op).1.state.accepted = true →
      (step rconf s op).1.state.acceptedProposalID ≤
        (step rconf s op).1.state.promisedProposalID) ∧
    (s.state.accepted = true → (step rconf s op).1.state.accepted = true →
      s.state.acceptedProposalID ≤ (step rconf s op).1.state.acceptedProposalID) := by
  have hdrop : (dropExpired s.state s.now).accepted = true → dropExpired s.state s.now = s.state :=
    fun h => (dropExpired_accepted s.state s.now h).1
  cases op with
  | onLeaseTimeout => simp [step]
  | clock now => simpa [step] using hinv
  | processMsg msg master =>
    simp only [step]
    have hout := processMsg_outcome rconf s.now master s.state msg
    generalize processMsg rconf s.now master s.state msg = r at hout ⊢
    obtain ⟨state', effects⟩ := r
    dsimp only at hout ⊢
    cases hout with
    | ignored _ | unexpected _ _ => exact ⟨hinv, fun _ _ => UInt64.le_refl _⟩
    | prepareRejected _ _ | proposeRejected _ _ =>
      refine ⟨fun hacc => ?_, fun _ hacc => ?_⟩ <;> rw [hdrop hacc]
      · exact hinv (hdrop hacc ▸ hacc)
      · exact UInt64.le_refl _
    | currentlyOpen _ _ hacc => simp [hacc]
    | previouslyAccepted _ hge hacc =>
      have hacc' := hdrop hacc ▸ hacc
      refine ⟨fun _ => ?_, fun _ _ => UInt64.le_refl _⟩
      exact UInt64.le_trans (hinv hacc') (UInt64.not_lt.mp hge)
    | accepted htype hge =>
      refine ⟨fun _ => hop msg master rfl htype, fun hacc _ => ?_⟩
      exact UInt64.le_trans (hinv hacc) (UInt64.not_lt.mp hge)

/-- A propose request beyond the promise is accepted, and the promise stays behind. -/
theorem step_accepts_unprepared (rconf : ReplicatedConfig) (s : Clocked) (msg : PLeaseMsg)
    (master : UInt32) (htype : msg.type = .proposeRequest)
    (h : s.state.promisedProposalID < msg.proposalID) :
    (step rconf s (.processMsg msg master)).1.state.accepted = true ∧
    (step rconf s (.processMsg msg master)).1.state.promisedProposalID <
      (step rconf s (.processMsg msg master)).1.state.acceptedProposalID := by
  have hge : ¬ msg.proposalID < s.state.promisedProposalID :=
    fun hlt => UInt64.lt_irrefl _ (UInt64.lt_trans h hlt)
  simp [step, processMsg, htype, onProposeRequest, hge, h]

/-- The accepted id is in order throughout a run exactly if no propose request of
the run is beyond the promise it meets: the acceptor takes such a request without
raising its promise. -/
theorem acceptedIDOrdered_iff (rconf : ReplicatedConfig) (now : UInt64) (ops : List Op) :
    AcceptedIDOrdered ((machine rconf now).trace ops) ↔
      ProposesPrepared ((machine rconf now).trace ops) := by
  constructor
  · intro hord st hst msg master hinput htype
    by_contra hlt
    obtain ⟨-, op, earlier, -, rfl⟩ := (machine rconf now).mem_trace hst
    obtain rfl : op = .processMsg msg master := hinput
    obtain ⟨hacc, hbeyond⟩ := step_accepts_unprepared rconf ((machine rconf now).run earlier) msg
      master htype (UInt64.not_le.mp hlt)
    exact UInt64.not_le.mpr hbeyond ((hord _ hst).1 hacc)
  · intro hprep
    -- The state at the end of the run is in order too: the next step starts there.
    suffices h : AcceptedIDOrdered ((machine rconf now).trace ops) ∧
        (((machine rconf now).run ops).state.accepted = true →
          ((machine rconf now).run ops).state.acceptedProposalID ≤
            ((machine rconf now).run ops).state.promisedProposalID) from h.1
    induction ops with
    | nil => exact ⟨by simp [AcceptedIDOrdered], by simp [machine, PLeaseAcceptorState.init]⟩
    | cons op ops ih =>
      obtain ⟨hord, hinv⟩ := ih fun st hst => hprep st (List.mem_cons_of_mem _ hst)
      have hstep := step_acceptedID_ordered rconf ((machine rconf now).run ops) op hinv
        fun msg master hop => hprep _ List.mem_cons_self msg master hop
      refine ⟨?_, hstep.1⟩
      intro st hst
      rcases List.mem_cons.mp hst with rfl | hst
      · exact hstep
      · exact hord st hst

/-- A propose request of node `nodeID` in its first round. -/
def firstPropose (nodeID : UInt32) : PLeaseMsg where
  type := .proposeRequest
  nodeID := nodeID
  proposalID := 16777216 + nodeID.toUInt64
  acceptedProposalID := 0
  leaseOwner := nodeID
  duration := maxLeaseTime
  localExpireTime := 0
  paxosID := 0

/-- Node 0 sees the propose requests of nodes 2 and 1 and neither prepare request:
it accepts both, the second below the first, and its promise is still 0. -/
theorem not_acceptedIDOrdered :
    ¬ AcceptedIDOrdered ((machine ⟨0, 3, 0⟩ 1000).trace
      [.processMsg (firstPropose 1) 4294967295, .processMsg (firstPropose 2) 4294967295]) := by
  unfold AcceptedIDOrdered
  decide

end PLeaseAcceptor

end PL
