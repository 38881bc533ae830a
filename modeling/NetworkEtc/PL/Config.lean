-- SUMMARY: The replicated configuration: quorum size, proposal id layout, and the lease constants.
import NetworkEtc.PL.Msg

/-!
# `ReplicatedConfig`

The node's own id, the number of nodes, and the counter of restarts. A proposal
id packs `<proposal count since restart> <restartCounter> <nodeID>` into 64 bits.
-/

namespace PL

/-- `WIDTH_NODEID` -/
def widthNodeID : UInt64 := 8
/-- `WIDTH_RESTART_COUNTER` -/
def widthRestartCounter : UInt64 := 16
/-- `MAX_CELL_SIZE`, the number of entries of the address table. -/
def maxCellSize : Nat := 256
/-- `ACQUIRELEASE_TIMEOUT`, in milliseconds. -/
def acquireLeaseTimeout : UInt64 := 20000
/-- `MAX_LEASE_TIME`, in milliseconds. -/
def maxLeaseTime : UInt32 := 70000

structure ReplicatedConfig where
  nodeID : UInt32
  numNodes : UInt32
  restartCounter : UInt64
  deriving DecidableEq, Repr

namespace ReplicatedConfig

/-- The configuration as the program is loaded, with the two values `Init` takes
from the configuration file. Nothing assigns the member `restartCounter`. -/
def loaded (nodeID numNodes : UInt32) : ReplicatedConfig := ⟨nodeID, numNodes, 0⟩

/-- `floor(numNodes / 2) + 1`; the division in `double` is exact for 32 bits. -/
def minMajority (rconf : ReplicatedConfig) : Nat := rconf.numNodes.toNat / 2 + 1

/-- `ceil(numNodes / 2)`, the number of rejections that ends a round. -/
def rejectMajority (rconf : ReplicatedConfig) : Nat := (rconf.numNodes.toNat + 1) / 2

def nextHighest (rconf : ReplicatedConfig) (proposalID : UInt64) : UInt64 :=
  let left := proposalID >>> (widthNodeID + widthRestartCounter)
  let left := left + 1
  let left := left <<< (widthNodeID + widthRestartCounter)
  let middle := rconf.restartCounter <<< widthNodeID
  let right := rconf.nodeID.toUInt64
  left ||| middle ||| right

/-- `ReplicatedLog::GetPaxosID` returns the node's own id. -/
def getPaxosID (rconf : ReplicatedConfig) : UInt64 := rconf.nodeID.toUInt64

end ReplicatedConfig

/-- The round of a proposal id, its `<proposal count since restart>`. -/
def roundOf (proposalID : UInt64) : Nat := proposalID.toNat / 2 ^ 24

theorem roundOf_mono {p q : UInt64} (h : p ≤ q) : roundOf p ≤ roundOf q :=
  Nat.div_le_div_right (UInt64.le_iff_toNat_le.mp h)

-- ---------------------------------------------------------------------------
-- The layout of a proposal id
-- ---------------------------------------------------------------------------

namespace ReplicatedConfig

variable (rconf : ReplicatedConfig) {proposalID : UInt64}

/-- The left part as a number: the shift does not push the round out of 64 bits
as long as it has 40. -/
theorem nextHighest_left (h : roundOf proposalID + 1 < 2 ^ 40) :
    (((proposalID >>> (widthNodeID + widthRestartCounter)) + 1) <<<
      (widthNodeID + widthRestartCounter)).toNat = (roundOf proposalID + 1) * 2 ^ 24 := by
  have hwidth : (widthNodeID + widthRestartCounter).toNat % 64 = 24 := by decide
  have hshift : (proposalID >>> (widthNodeID + widthRestartCounter)).toNat = roundOf proposalID := by
    rw [UInt64.toNat_shiftRight, hwidth, Nat.shiftRight_eq_div_pow, roundOf]
  have hone : (1 : UInt64).toNat = 1 := rfl
  rw [UInt64.toNat_shiftLeft, hwidth, UInt64.toNat_add, hshift, Nat.shiftLeft_eq]
  omega

theorem nextHighest_toNat (h : roundOf proposalID + 1 < 2 ^ 40) :
    (rconf.nextHighest proposalID).toNat =
      (roundOf proposalID + 1) * 2 ^ 24 ||| (rconf.restartCounter <<< widthNodeID).toNat |||
        rconf.nodeID.toNat := by
  simp only [nextHighest, UInt64.toNat_or, nextHighest_left h, UInt32.toNat_toUInt64]

/-- The next id is higher, whatever the other two parts are: they are or-ed in. -/
theorem lt_nextHighest (h : roundOf proposalID + 1 < 2 ^ 40) :
    proposalID < rconf.nextHighest proposalID := by
  rw [UInt64.lt_iff_toNat_lt, rconf.nextHighest_toNat h]
  have hround : proposalID.toNat < (roundOf proposalID + 1) * 2 ^ 24 := by
    unfold roundOf
    omega
  have hmiddle := Nat.left_le_or (n := (roundOf proposalID + 1) * 2 ^ 24)
    (m := (rconf.restartCounter <<< widthNodeID).toNat)
  have hright := Nat.left_le_or
    (n := (roundOf proposalID + 1) * 2 ^ 24 ||| (rconf.restartCounter <<< widthNodeID).toNat)
    (m := rconf.nodeID.toNat)
  omega

/-- The three parts stand side by side when each fits its field. -/
theorem nextHighest_fields (h : roundOf proposalID + 1 < 2 ^ 40)
    (hcounter : rconf.restartCounter.toNat < 2 ^ 16) (hnode : rconf.nodeID.toNat < 2 ^ 8) :
    (rconf.nextHighest proposalID).toNat =
      (roundOf proposalID + 1) * 2 ^ 24 + rconf.restartCounter.toNat * 2 ^ 8 +
        rconf.nodeID.toNat := by
  have hwidth : widthNodeID.toNat % 64 = 8 := by decide
  have hmiddle : (rconf.restartCounter <<< widthNodeID).toNat =
      2 ^ 8 * rconf.restartCounter.toNat := by
    rw [UInt64.toNat_shiftLeft, hwidth, Nat.shiftLeft_eq]
    omega
  rw [rconf.nextHighest_toNat h, hmiddle, Nat.or_assoc, ← Nat.two_pow_add_eq_or_of_lt hnode,
    Nat.mul_comm, ← Nat.two_pow_add_eq_or_of_lt]
  · omega
  · omega

end ReplicatedConfig

end PL
