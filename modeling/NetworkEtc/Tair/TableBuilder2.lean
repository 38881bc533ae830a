-- SUMMARY: The builder whose first concern is that the copies of a bucket are not all in one rack.
import NetworkEtc.Tair.TableBuilder1

/-!
# `table_builder2`

The servers are in two rooms: the rack that has the most servers, and all others. What the code
computes with `float`s is a parameter.
-/

namespace Tair

open Library TableBuilder

/-- What is computed with `float`s. -/
structure Floats where
  /-- `ratio > stat_change_ratio || ratio > 0.9999`, with `ratio = diff_server / (float) pos_max` -/
  uneven : Int → Int → Bool
  /-- `(int) (total * ((float) pos_max / available_server_count))` -/
  share : UInt32 → Int → Int → Int

/-- The members of `table_builder2`. The numbers of tokens are never set. -/
structure TableBuilder2 where
  floats : Floats
  buildStatNormal : Bool
  posMax : Int
  maxMachineRoomId : UInt32
  mtokensPerNodeMin : Int
  mtokensPerNodeMaxCount : Int
  otokensPerNodeMin : Int
  otokensPerNodeMaxCount : Int

/-- `pos_max` and `max_machine_room_id`: the first of the racks with the most servers. -/
def largestRack (poses : List UInt32) (room : UInt32) : Int × UInt32 :=
  (poses.foldl (fun set pos => setInsert (· ≤ ·) pos set) []).foldl
    (fun largest pos => if largest.1 < poses.count pos then (poses.count pos, pos) else largest)
    (0, room)

/-- How buckets go to the servers of a room. -/
def perRoom (total servers : Int) : PerNode :=
  let min := Int.tdiv total servers
  let maxCount := total - min * servers
  ⟨min, maxCount, servers - maxCount⟩

/-- The buckets that are handed out in a room. -/
def PerNode.total (per : PerNode) : Int := per.min * per.minCount + (per.min + 1) * per.maxCount

/-- What is not handed out in the one room, as an `int`. -/
def remaining (total : UInt32) (per : PerNode) : Int :=
  (total - UInt32.ofInt per.total).toInt32.toInt

/-- The loop over the servers of a room: the first ones get one more. -/
def assignRoom (per : PerNode) : List ServerId → Int → (ServerId → Int) → ServerId → Int
  | [], _, capable => capable
  | id :: ids, maxS, capable =>
    if maxS < per.maxCount then
      assignRoom per ids (maxS + 1) (Function.update capable id (per.min + 1))
    else assignRoom per ids maxS (Function.update capable id per.min)

namespace TableBuilder2

/-- `set_available_server`: `servers` are the ids of the nodes. -/
def setAvailableServer (b : TableBuilder TableBuilder2) (servers : List UInt64) :
    TableBuilder TableBuilder2 :=
  let available := availableServers b.posMask servers
  let (posMax, room) :=
    largestRack (servers.map fun id => (id &&& b.posMask).toUInt32) b.own.maxMachineRoomId
  let diffServer := ((available.length : Int) - posMax - posMax).natAbs
  { b with
    availableServer := available
    own := { b.own with
      posMax := posMax
      maxMachineRoomId := room
      buildStatNormal :=
        !(b.own.floats.uneven diffServer posMax ∨ available.length < b.copyCount.toNat) } }

/-- `is_this_node_OK` -/
def isThisNodeOK (b : TableBuilder TableBuilder2) (nodeId : ServerId) (lineNum nodeIdx : Nat)
    (table : HashTable) (optionLevel : Nat) (nodeInUse : Bool) : NodeState :=
  let turn : Int := if nodeInUse then 1 else 0
  let inLargest := nodeId.second = b.own.maxMachineRoomId
  let tokenPerNodeMin :=
    if inLargest then b.own.mtokensPerNodeMin else b.own.otokensPerNodeMin
  let tokenPerNodeMaxCount :=
    if inLargest then b.own.mtokensPerNodeMaxCount else b.own.otokensPerNodeMaxCount
  let others := (List.range b.copyCount.toNat).filter (· ≠ lineNum)
  if b.isNodeAvailble nodeId = false then .invalidNode
  else if lineNum = 0 ∧ b.mtokens.capable nodeId + turn ≤ b.mtokens.countInNode nodeId then
    .toomanyMaster
  else if lineNum ≠ 0 ∧ optionLevel = CONSIDER_ALL ∧
      b.tokens.capable nodeId + turn ≤ b.tokens.countInNode nodeId then
    .toomanyBucket
  else if lineNum ≠ 0 ∧ optionLevel ≠ CONSIDER_ALL ∧ optionLevel ≠ CONSIDER_FORCE ∧
      tokenPerNodeMin + turn ≤ b.tokensCountInNodeNow nodeId ∧
      tokenPerNodeMaxCount + turn ≤ b.maxCountNow then
    .toomanyBucket
  else if lineNum = 0 ∧ optionLevel = CONSIDER_BASE then .nodeOk
  else if ∃ i ∈ others, (table i nodeIdx).first = nodeId.first then .sameNode
  -- `pos_limit` has nothing but the position of the server
  else if b.own.buildStatNormal ∧ lineNum ≠ 0 ∧
      ∀ i ∈ others, (table i nodeIdx).second = nodeId.second then
    .samePos
  else .nodeOk

/-- `caculate_capable`. It divides by zero when all servers are in one rack. -/
def caculateCapable (b : TableBuilder TableBuilder2) : Option (TableBuilder TableBuilder2) :=
  let normal := b.own.buildStatNormal ∧ 1 < b.copyCount.toNat
  -- `assert(build_stat_normal)`
  if ¬ normal then none
  else
    let servers : Int := b.availableServer.length
    let posMax := b.own.posMax
    let copies := b.bucketCount * (b.copyCount - 1)
    let balance := b.own.floats.share (b.bucketCount * b.copyCount) posMax servers
    let total := if balance < copies.toInt32.toInt then balance else copies.toInt32.toInt
    if posMax = 0 ∨ servers - posMax = 0 then none
    else
      let mtoken := perRoom total posMax
      let mmaster := perRoom (b.own.floats.share b.bucketCount posMax servers) posMax
      let otoken := perRoom (remaining (b.bucketCount * b.copyCount) mtoken) (servers - posMax)
      let omaster := perRoom (remaining b.bucketCount mmaster) (servers - posMax)
      let (largest, rest) :=
        b.availableServer.partition fun id => id.second = b.own.maxMachineRoomId
      some { b with
        tokens := { b.tokens with
          capable := assignRoom otoken rest 0 (assignRoom mtoken largest 0 fun _ => 0) }
        mtokens := { b.mtokens with
          capable := assignRoom omaster rest 0 (assignRoom mmaster largest 0 fun _ => 0) } }

/-- `table_builder2` -/
def builder : Virtual TableBuilder2 where
  isThisNodeOK := isThisNodeOK
  caculateCapable := caculateCapable
  getTokensPerNode := fun b nodeId =>
    if nodeId.second = b.own.maxMachineRoomId then b.own.mtokensPerNodeMin
    else b.own.otokensPerNodeMin

/-- `rebuild_table` -/
def rebuildTable (b : TableBuilder TableBuilder2) (source : HashTable) (noQuickTable : Bool) :
    Option (BuildResult × TableBuilder TableBuilder2 × HashTable) :=
  if b.own.buildStatNormal = false then some (.buildError, b, source)
  else TableBuilder.rebuildTable builder b source noQuickTable

end TableBuilder2

end Tair
