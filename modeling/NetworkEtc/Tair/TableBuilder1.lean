-- SUMMARY: The builder whose first concern is that the servers hold equally many buckets.
import Mathlib.Algebra.Ring.Int.Defs
import NetworkEtc.Tair.TableBuilder

/-!
# `table_builder1`

Every server should hold `tokens_per_node_min` buckets or one more.
-/

namespace Tair

/-- The members of `table_builder1`. -/
structure TableBuilder1 where
  tokensPerNodeMin : Int
  tokensPerNodeMaxCount : Int
  tokensPerNodeMinCount : Int
  masterTokensPerNodeMin : Int
  masterTokensPerNodeMaxCount : Int
  masterTokensPerNodeMinCount : Int

/-- How buckets go to servers: how many each of them gets at least, how many get one more, and how
many do not. -/
structure PerNode where
  min : Int
  maxCount : Int
  minCount : Int

/-- `total / size`, and what is left over, in `int`s. -/
def perNode (total : UInt32) (size : Nat) : PerNode :=
  let min := (total / UInt32.ofNat size).toInt32
  let maxCount := (total - min.toUInt32 * UInt32.ofNat size).toInt32
  ⟨min.toInt, maxCount.toInt, (Int32.ofNat size - maxCount).toInt⟩

/-- `pre_node_count_min`: the mean of the counts that are not zero. -/
def preNodeCountMin (counts : List Int) : Int :=
  let size : Int := (counts.filter (· ≠ 0)).length
  if 0 < size then Int.tdiv (counts.filter (· ≠ 0)).sum size else 0

/-- The loop that says what the servers are capable of. `i` servers are done with, and `maxS` of
them got one more than the others. -/
def assignCapable (per : PerNode) (pre : Int) (count : ServerId → Int) :
    List ServerId → Int → Int → (ServerId → Int) → ServerId → Int
  | [], _, _, capable => capable
  | id :: ids, i, maxS, capable =>
    if count id ≤ pre then
      if i - maxS < per.minCount then
        assignCapable per pre count ids (i + 1) maxS (Function.update capable id per.min)
      else
        assignCapable per pre count ids (i + 1) (maxS + 1)
          (Function.update capable id (per.min + 1))
    else if maxS < per.maxCount then
      assignCapable per pre count ids (i + 1) (maxS + 1)
        (Function.update capable id (per.min + 1))
    else assignCapable per pre count ids (i + 1) maxS (Function.update capable id per.min)

namespace TableBuilder1

/-- `is_this_node_OK` -/
def isThisNodeOK (b : TableBuilder TableBuilder1) (nodeId : ServerId) (lineNum nodeIdx : Nat)
    (table : HashTable) (optionLevel : Nat) (nodeInUse : Bool) : NodeState :=
  let turn : Int := if nodeInUse then 1 else 0
  if b.isNodeAvailble nodeId = false then .invalidNode
  else if lineNum = 0 ∧ b.mtokens.capable nodeId + turn ≤ b.mtokens.countInNode nodeId then
    .toomanyMaster
  else if lineNum ≠ 0 ∧ optionLevel = CONSIDER_ALL ∧
      b.tokens.capable nodeId + turn ≤ b.tokens.countInNode nodeId then
    .toomanyBucket
  else if lineNum ≠ 0 ∧ optionLevel ≠ CONSIDER_ALL ∧ optionLevel ≠ CONSIDER_FORCE ∧
      b.own.tokensPerNodeMin + turn ≤ b.tokensCountInNodeNow nodeId ∧
      b.own.tokensPerNodeMaxCount + turn ≤ b.maxCountNow then
    .toomanyBucket
  else if lineNum = 0 ∧ optionLevel = CONSIDER_BASE then .nodeOk
  else
    ((List.range b.copyCount.toNat).findSome? fun i =>
      if i = lineNum then none
      else if (table i nodeIdx).first = nodeId.first then some .sameNode
      else if optionLevel < CONSIDER_BASE ∧ (table i nodeIdx).second = nodeId.second then
        some .samePos
      else none).getD .nodeOk

/-- `caculate_capable` -/
def caculateCapable (b : TableBuilder TableBuilder1) : Option (TableBuilder TableBuilder1) :=
  if b.availableServer.length = 0 then none
  else
    let tokens := perNode (b.bucketCount * b.copyCount) b.availableServer.length
    let masters := perNode b.bucketCount b.availableServer.length
    let preNode := preNodeCountMin (b.availableServer.map b.tokens.countInNode)
    let preMnode := preNodeCountMin (b.availableServer.map b.mtokens.countInNode)
    some { b with
      own := ⟨tokens.min, tokens.maxCount, tokens.minCount, masters.min, masters.maxCount,
        masters.minCount⟩
      tokens := { b.tokens with
        capable := assignCapable tokens preNode b.tokens.countInNode b.availableServer 0 0
          fun _ => 0 }
      mtokens := { b.mtokens with
        capable := assignCapable masters preMnode b.mtokens.countInNode b.availableServer 0 0
          fun _ => 0 } }

/-- `table_builder1` -/
def builder : Virtual TableBuilder1 where
  isThisNodeOK := isThisNodeOK
  caculateCapable := caculateCapable
  getTokensPerNode := fun b _ => b.own.tokensPerNodeMin

end TableBuilder1

end Tair
