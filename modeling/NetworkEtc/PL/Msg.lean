-- SUMMARY: The PaxosLease message: its eight types, its fields, and the functions that fill it in.
import Mathlib.Data.UInt

/-!
# `PLeaseMsg`

`PLeaseMsg` is one flat record that every message type shares. A type uses some
of the fields only; the functions that build a message overwrite those and leave
the others as they were, which is why each of them takes the old record.
-/

namespace PL

/-- `PLEASE_PREPARE_REQUEST` to `PLEASE_LEARN_CHOSEN`. -/
inductive PLeaseMsgType where
  | prepareRequest
  | prepareRejected
  | preparePreviouslyAccepted
  | prepareCurrentlyOpen
  | proposeRequest
  | proposeRejected
  | proposeAccepted
  | learnChosen
  deriving DecidableEq, Repr

structure PLeaseMsg where
  type : PLeaseMsgType
  nodeID : UInt32
  proposalID : UInt64
  acceptedProposalID : UInt64
  leaseOwner : UInt32
  duration : UInt32
  localExpireTime : UInt64
  paxosID : UInt64
  deriving DecidableEq, Repr

namespace PLeaseMsg

def init (msg : PLeaseMsg) (type_ : PLeaseMsgType) (nodeID_ : UInt32) : PLeaseMsg :=
  { msg with type := type_, nodeID := nodeID_ }

def prepareRequest (msg : PLeaseMsg) (nodeID_ : UInt32) (proposalID_ paxosID_ : UInt64) :
    PLeaseMsg :=
  { msg.init .prepareRequest nodeID_ with proposalID := proposalID_, paxosID := paxosID_ }

def prepareRejected (msg : PLeaseMsg) (nodeID_ : UInt32) (proposalID_ : UInt64) : PLeaseMsg :=
  { msg.init .prepareRejected nodeID_ with proposalID := proposalID_ }

def preparePreviouslyAccepted (msg : PLeaseMsg) (nodeID_ : UInt32)
    (proposalID_ acceptedProposalID_ : UInt64) (leaseOwner_ duration_ : UInt32) : PLeaseMsg :=
  { msg.init .preparePreviouslyAccepted nodeID_ with
    proposalID := proposalID_
    acceptedProposalID := acceptedProposalID_
    leaseOwner := leaseOwner_
    duration := duration_ }

def prepareCurrentlyOpen (msg : PLeaseMsg) (nodeID_ : UInt32) (proposalID_ : UInt64) :
    PLeaseMsg :=
  { msg.init .prepareCurrentlyOpen nodeID_ with proposalID := proposalID_ }

def proposeRequest (msg : PLeaseMsg) (nodeID_ : UInt32) (proposalID_ : UInt64)
    (leaseOwner_ duration_ : UInt32) : PLeaseMsg :=
  { msg.init .proposeRequest nodeID_ with
    proposalID := proposalID_
    leaseOwner := leaseOwner_
    duration := duration_ }

def proposeRejected (msg : PLeaseMsg) (nodeID_ : UInt32) (proposalID_ : UInt64) : PLeaseMsg :=
  { msg.init .proposeRejected nodeID_ with proposalID := proposalID_ }

def proposeAccepted (msg : PLeaseMsg) (nodeID_ : UInt32) (proposalID_ : UInt64) : PLeaseMsg :=
  { msg.init .proposeAccepted nodeID_ with proposalID := proposalID_ }

def learnChosen (msg : PLeaseMsg) (nodeID_ leaseOwner_ duration_ : UInt32)
    (localExpireTime_ : UInt64) : PLeaseMsg :=
  { msg.init .learnChosen nodeID_ with
    leaseOwner := leaseOwner_
    duration := duration_
    localExpireTime := localExpireTime_ }

def isRequest (msg : PLeaseMsg) : Bool :=
  msg.type == .proposeRequest || msg.type == .prepareRequest

def isPrepareResponse (msg : PLeaseMsg) : Bool :=
  msg.type == .prepareRejected || msg.type == .preparePreviouslyAccepted ||
    msg.type == .prepareCurrentlyOpen

def isProposeResponse (msg : PLeaseMsg) : Bool :=
  msg.type == .proposeRejected || msg.type == .proposeAccepted

/-- No message answers both phases. -/
theorem not_isPrepareResponse (msg : PLeaseMsg) (h : msg.isProposeResponse = true) :
    ¬ msg.isPrepareResponse = true := by
  cases htype : msg.type <;> simp_all [isPrepareResponse, isProposeResponse]

def isResponse (msg : PLeaseMsg) : Bool :=
  msg.isPrepareResponse || msg.isProposeResponse

/-- The positive answers to a prepare request: everything but a rejection. -/
def isPromise (msg : PLeaseMsg) : Bool :=
  msg.type == .prepareCurrentlyOpen || msg.type == .preparePreviouslyAccepted

end PLeaseMsg

end PL
