-- SUMMARY: The builder of the tables that say which servers hold a bucket: what it counts, and how it moves the copies of buckets.
import NetworkEtc.Library.SetMap
import Mathlib.Data.List.Rotate
import Mathlib.Logic.Function.Basic

/-!
# `table_builder`

A table has a line for each copy of the buckets: line 0 is for the masters. The builder goes over
the table, first over the masters and then over the other copies, and moves those that are where
they should not be. What may be where is up to the two kinds of builders.
-/

namespace Tair

open Library

/-- `server_id_type`: a server, and its position. -/
structure ServerId where
  first : UInt64
  second : UInt32
  deriving DecidableEq

namespace ServerId

/-- `INVALID_FLAG`, twice -/
def invalid : ServerId := ⟨0, 0⟩

/-- The order of pairs. -/
def le (a b : ServerId) : Prop := a.first < b.first ∨ a.first = b.first ∧ a.second ≤ b.second

instance : DecidableRel le := fun a b =>
  inferInstanceAs (Decidable (a.first < b.first ∨ a.first = b.first ∧ a.second ≤ b.second))

end ServerId

/-- `hash_table_type`: lines of `bucket_count` servers. -/
abbrev HashTable := Nat → Nat → ServerId

/-- `hash_table[line_num][node_idx] = node_id` -/
def HashTable.set (table : HashTable) (lineNum nodeIdx : Nat) (nodeId : ServerId) : HashTable :=
  Function.update table lineNum (Function.update (table lineNum) nodeIdx nodeId)

inductive NodeState where
  | nodeOk
  | invalidNode
  | toomanyMaster
  | toomanyBucket
  | sameNode
  | samePos
  deriving DecidableEq

inductive BuildResult where
  | buildError
  | buildOk
  | buildQuick
  deriving DecidableEq

inductive DataLostToleranceFlag where
  | noDataLost
  | allowDataLost
  deriving DecidableEq

def CONSIDER_ALL : Nat := 0
def CONSIDER_POS : Nat := 1
def CONSIDER_BASE : Nat := 2
def CONSIDER_FORCE : Nat := 3

abbrev Index := SetMap Int ServerId

/-- What is counted of the servers: of all copies, or of the masters only. -/
structure Counts where
  /-- `tokens_count_in_node` -/
  countInNode : ServerId → Int
  /-- `count_server`: the servers by their counts. -/
  countServer : Index
  /-- `scandidate_node`: the servers by how far their counts are from what they are capable of. -/
  candidateNode : Index
  /-- `server_capable` -/
  capable : ServerId → Int

/-- A builder. `own` are the members of its kind; `random n` is the answer of the call number `n`. -/
structure TableBuilder (σ : Type) where
  tokens : Counts
  mtokens : Counts
  tokensCountInNodeNow : ServerId → Int
  maxCountNow : Int
  availableServer : List ServerId
  posMask : UInt64
  bucketCount : UInt32
  copyCount : UInt32
  dLostFlag : DataLostToleranceFlag
  bPlaceFlag : Int
  random : Nat → Nat
  randomCalls : Nat
  own : σ

/-- What the kinds of builders differ in. `caculate_capable` may divide by zero. -/
structure Virtual (σ : Type) where
  isThisNodeOK : TableBuilder σ → ServerId → Nat → Nat → HashTable → Nat → Bool → NodeState
  caculateCapable : TableBuilder σ → Option (TableBuilder σ)
  getTokensPerNode : TableBuilder σ → ServerId → Int

/-- `change_tokens_count_in_node` -/
def Counts.changeTokensCountInNode (counts : Counts) (nodeId : ServerId) (minus : Bool) : Counts :=
  let old := counts.countInNode nodeId
  let new := if minus then old - 1 else old + 1
  { counts with
    countInNode := Function.update counts.countInNode nodeId new
    countServer := (counts.countServer.strike old nodeId).file ServerId.le new nodeId
    candidateNode := (counts.candidateNode.strike (old - counts.capable nodeId) nodeId).file
      ServerId.le (new - counts.capable nodeId) nodeId }

/-- `set_available_server`: `servers` are the ids of the nodes. -/
def availableServers (posMask : UInt64) (servers : List UInt64) : List ServerId :=
  servers.foldl (fun set id => setInsert ServerId.le ⟨id, (id &&& posMask).toUInt32⟩ set) []

namespace TableBuilder

variable {σ : Type}

/-- Nothing is counted. -/
def noCounts : Counts := ⟨fun _ => 0, [], [], fun _ => 0⟩

/-- A builder, and what is set of it before it is used. -/
def make (bucketC copyC : UInt32) (posMask : UInt64) (bucketPlaceFlag : Int)
    (servers : List UInt64) (dataLostFlag : DataLostToleranceFlag) (random : Nat → Nat) (own : σ) :
    TableBuilder σ where
  tokens := noCounts
  mtokens := noCounts
  tokensCountInNodeNow := fun _ => 0
  maxCountNow := 0
  availableServer := availableServers posMask servers
  posMask := posMask
  bucketCount := bucketC
  copyCount := copyC
  dLostFlag := dataLostFlag
  bPlaceFlag := bucketPlaceFlag
  random := random
  randomCalls := 0
  own := own

/-- `is_node_availble` -/
def isNodeAvailble (b : TableBuilder σ) (nodeId : ServerId) : Bool :=
  nodeId.first ≠ 0 ∧ nodeId ∈ b.availableServer

-- ---------------------------------------------------------------------------
-- Changes
-- ---------------------------------------------------------------------------

/-- `invaliad_node` -/
def invaliadNode (b : TableBuilder σ) (lineNum nodeIdx : Nat) (table : HashTable) :
    TableBuilder σ × HashTable :=
  let nodeId := table lineNum nodeIdx
  let b :=
    if b.isNodeAvailble nodeId then
      { b with
        tokens := b.tokens.changeTokensCountInNode nodeId true
        mtokens :=
          if lineNum = 0 then b.mtokens.changeTokensCountInNode nodeId true else b.mtokens }
    else b
  (b, table.set lineNum nodeIdx { nodeId with first := 0 })

/-- `update_node` -/
def updateNode (b : TableBuilder σ) (lineNum nodeIdx : Nat) (suitableNode : ServerId)
    (table : HashTable) : TableBuilder σ × HashTable :=
  let b :=
    if b.isNodeAvailble suitableNode then
      { b with
        tokens := b.tokens.changeTokensCountInNode suitableNode false
        mtokens :=
          if lineNum = 0 then b.mtokens.changeTokensCountInNode suitableNode false
          else b.mtokens }
    else b
  (b, table.set lineNum nodeIdx suitableNode)

/-- The lines of the copies that are not masters. -/
def slaveLines (b : TableBuilder σ) : List Nat := List.range' 1 (b.copyCount.toNat - 1)

/-- The copy whose server holds the fewest masters, with how many it holds; `none` is -1. -/
def chosenLine (b : TableBuilder σ) (idx : Nat) (table : HashTable) : Option (Nat × Int) :=
  b.slaveLines.foldl (fun chosen nextLine =>
    let nodeId := table nextLine idx
    if b.isNodeAvailble nodeId then
      let count := b.mtokens.countInNode nodeId
      match chosen with
      | none => some (nextLine, count)
      | some (_, minNodeCount) => if count < minNodeCount then some (nextLine, count) else chosen
    else chosen) none

/-- `change_master_node`: another copy becomes the master. -/
def changeMasterNode (b : TableBuilder σ) (idx : Nat) (table : HashTable) (forceFlag : Bool) :
    Bool × TableBuilder σ × HashTable :=
  match b.chosenLine idx table with
  | none => (false, b, table)
  | some (chosenLineNum, _) =>
    let newMasterNode := table chosenLineNum idx
    if forceFlag = false ∧
        b.mtokens.capable newMasterNode ≤ b.mtokens.countInNode newMasterNode then
      (false, b, table)
    else
      let orgNodeId := table 0 idx
      let table := table.set 0 idx newMasterNode
      let b :=
        { b with
          tokensCountInNodeNow := Function.update b.tokensCountInNodeNow newMasterNode
            (b.tokensCountInNodeNow newMasterNode + 1)
          mtokens := b.mtokens.changeTokensCountInNode newMasterNode false }
      if b.isNodeAvailble orgNodeId then
        (true, { b with mtokens := b.mtokens.changeTokensCountInNode orgNodeId true },
          table.set chosenLineNum idx orgNodeId)
      else (true, b, table.set chosenLineNum idx { newMasterNode with first := 0 })

-- ---------------------------------------------------------------------------
-- Where a copy may go
-- ---------------------------------------------------------------------------

/-- The loop over the candidates of one set: the last one that is good, or the original server. -/
def suitableIn (ok : ServerId → Bool) (original : ServerId) : List ServerId → ServerId → ServerId
  | [], suitable => suitable
  | serverId :: set, suitable =>
    if ok serverId then
      if serverId.first = original.first then serverId else suitableIn ok original set serverId
    else suitableIn ok original set suitable

/-- The loop over the sets of candidates. Only some of them are looked at to begin with. -/
def suitableAt (b : TableBuilder σ) (ok : ServerId → Bool) (original : ServerId) (level : Nat) :
    Index → Nat → ServerId × Nat → ServerId × Nat
  | [], _, found => found
  | (_, set) :: candidates, s, (suitable, calls) =>
    if s < level + 1 ∧ suitable.first = 0 then
      let found :=
        if set.length = 0 then (suitable, calls)
        else if b.bPlaceFlag = 0 then (suitableIn ok original set suitable, calls)
        else
          (suitableIn ok original (set.rotate (b.random calls % set.length)) suitable, calls + 1)
      suitableAt b ok original level candidates (if level < CONSIDER_BASE then s + 1 else s) found
    else (suitable, calls)

/-- `get_suitable_node` -/
def getSuitableNode (V : Virtual σ) (b : TableBuilder σ) (lineNum nodeIdx : Nat)
    (table : HashTable) (original : ServerId) : ServerId × TableBuilder σ :=
  let candidates := if lineNum = 0 then b.mtokens.candidateNode else b.tokens.candidateNode
  let found := [CONSIDER_ALL, CONSIDER_POS, CONSIDER_BASE, CONSIDER_FORCE].foldl
    (fun found level =>
      if found.1.first = 0 then
        b.suitableAt (fun id => V.isThisNodeOK b id lineNum nodeIdx table level false = .nodeOk)
          original level candidates 0 found
      else found)
    (ServerId.invalid, b.randomCalls)
  (found.1, { b with randomCalls := found.2 })

-- ---------------------------------------------------------------------------
-- Tables
-- ---------------------------------------------------------------------------

/-- The masters of a quick table, from the bucket `idx` on: whether all of them are found. -/
def quickMasters (b : TableBuilder σ) (table : HashTable) :
    List Nat → Bool × TableBuilder σ × HashTable
  | [] => (true, b, table)
  | idx :: idxs =>
    if b.isNodeAvailble (table 0 idx) then quickMasters b table idxs
    else
      match b.changeMasterNode idx table true with
      | (false, b, table) =>
        if b.dLostFlag ≠ .allowDataLost then (false, b, table) else quickMasters b table idxs
      | (true, b, table) => quickMasters b table idxs

/-- The other copies of a quick table: what is lost is cleared. -/
def quickSlaves (b : TableBuilder σ) (table : HashTable) : HashTable := fun line idx =>
  if 1 ≤ line ∧ line < b.copyCount.toNat ∧ idx < b.bucketCount.toNat ∧
      b.isNodeAvailble (table line idx) = false then .invalid
  else table line idx

/-- `build_quick_table` -/
def buildQuickTable (b : TableBuilder σ) (table : HashTable) : Bool × TableBuilder σ × HashTable :=
  match b.quickMasters table (List.range b.bucketCount.toNat) with
  | (false, b, table) => (false, b, table)
  | (true, b, table) => (true, b, b.quickSlaves table)

/-- `update_node_count` -/
def updateNodeCount (b : TableBuilder σ) (nodeId : ServerId) (collector : ServerId → Int) :
    Bool × (ServerId → Int) :=
  if nodeId ∈ b.availableServer then
    (true, Function.update collector nodeId (collector nodeId + 1))
  else (false, collector)

/-- The servers in some cells, counted from zero. -/
def collect (b : TableBuilder σ) (cells : List ServerId) : ServerId → Int :=
  cells.foldl (fun collector nodeId => (b.updateNodeCount nodeId collector).2) fun _ => 0

/-- `build_index` -/
def buildIndex (b : TableBuilder σ) (collector : ServerId → Int) : Index :=
  SetMap.fileAll ServerId.le (b.availableServer.map fun id => (collector id, id))

/-- `init_candidate` -/
def initCandidate (capable : ServerId → Int) (countServer : Index) : Index :=
  SetMap.fileAll ServerId.le
    (countServer.flatMap fun e => e.2.map fun id => (e.1 - capable id, id))

/-- The cells of the masters, if there is a line for them. -/
def masterCells (b : TableBuilder σ) : List (Nat × Nat) :=
  if 0 < b.copyCount.toNat then (List.range b.bucketCount.toNat).map fun idx => (0, idx) else []

/-- The cells of the other copies, bucket by bucket. -/
def slaveCells (b : TableBuilder σ) : List (Nat × Nat) :=
  (List.range b.bucketCount.toNat).flatMap fun idx => b.slaveLines.map fun line => (line, idx)

/-- The first part of `rebuild_table`: everything is counted. Whether there is a master that is not
available is the third result of the loop. -/
def countAll (V : Virtual σ) (b : TableBuilder σ) (source : HashTable) :
    Option (TableBuilder σ) := do
  let cells := (List.range b.copyCount.toNat).flatMap fun line =>
    (List.range b.bucketCount.toNat).map (source line)
  let masters := (List.range b.bucketCount.toNat).map (source 0)
  let tokensCount := b.collect cells
  let mtokensCount := b.collect (if 0 < b.copyCount.toNat then masters else [])
  let b := { b with
    tokens := { b.tokens with
      countInNode := tokensCount
      countServer := b.buildIndex tokensCount }
    mtokens := { b.mtokens with
      countInNode := mtokensCount
      countServer := b.buildIndex mtokensCount }
    tokensCountInNodeNow := fun _ => 0
    maxCountNow := 0 }
  let b ← V.caculateCapable b
  return { b with
    tokens := { b.tokens with
      candidateNode := initCandidate b.tokens.capable b.tokens.countServer }
    mtokens := { b.mtokens with
      candidateNode := initCandidate b.mtokens.capable b.mtokens.countServer } }

/-- `need_build_quick_table` -/
def needBuildQuickTable (b : TableBuilder σ) (source : HashTable) : Bool :=
  0 < b.copyCount.toNat ∧ ∃ idx < b.bucketCount.toNat, source 0 idx ∉ b.availableServer

/-- What is counted of a cell that is done with. -/
def countNow (V : Virtual σ) (b : TableBuilder σ) (nodeId : ServerId) : TableBuilder σ :=
  let now := b.tokensCountInNodeNow nodeId + 1
  { b with
    tokensCountInNodeNow := Function.update b.tokensCountInNodeNow nodeId now
    maxCountNow :=
      if now = V.getTokensPerNode b nodeId + 1 then b.maxCountNow + 1 else b.maxCountNow }

/-- The body of the loops of `rebuild_table`; an error is when it gives up. -/
def rebuildCell (V : Virtual σ) (state : TableBuilder σ × HashTable) (cell : Nat × Nat) :
    Except (TableBuilder σ × HashTable) (TableBuilder σ × HashTable) :=
  let (b, table) := state
  let (lineNum, nodeIdx) := cell
  let nodeId := table lineNum nodeIdx
  let consider := if lineNum = 0 then CONSIDER_BASE else CONSIDER_ALL
  if V.isThisNodeOK b nodeId lineNum nodeIdx table consider true = .nodeOk then
    .ok (countNow V b nodeId, table)
  else
    let changed :=
      if lineNum = 0 then b.changeMasterNode nodeIdx table false else (false, b, table)
    if changed.1 then .ok changed.2
    else
      let oldNode := table lineNum nodeIdx
      let (b, table) := b.invaliadNode lineNum nodeIdx table
      let (suitableNode, b) := getSuitableNode V b lineNum nodeIdx table oldNode
      if suitableNode.first = 0 then .error (b, table)
      else
        let (b, table) := b.updateNode lineNum nodeIdx suitableNode table
        .ok (countNow V b suitableNode, table)

/-- `rebuild_table` -/
def rebuildTable (V : Virtual σ) (b : TableBuilder σ) (source : HashTable) (noQuickTable : Bool) :
    Option (BuildResult × TableBuilder σ × HashTable) := do
  let b ← countAll V b source
  if b.needBuildQuickTable source ∧ noQuickTable = false then
    match b.buildQuickTable source with
    | (true, b, table) => return (.buildQuick, b, table)
    | (false, b, table) => return (.buildError, b, table)
  else if b.availableServer.length < b.copyCount.toNat then
    return (.buildError, b, source)
  else
    match (b.masterCells ++ b.slaveCells).foldlM (rebuildCell V) (b, source) with
    | .ok (b, table) => return (.buildOk, b, table)
    | .error (b, table) => return (.buildError, b, table)

-- ---------------------------------------------------------------------------
-- Arrays
-- ---------------------------------------------------------------------------

/-- `load_hash_table`: an array has line after line. -/
def loadHashTable (b : TableBuilder σ) (pHashTable : Nat → UInt64) : HashTable := fun line idx =>
  if line < b.copyCount.toNat ∧ idx < b.bucketCount.toNat then
    let serverId := pHashTable (line * b.bucketCount.toNat + idx)
    ⟨serverId, (serverId &&& b.posMask).toUInt32⟩
  else .invalid

/-- `write_hash_table`, of a builder for that many buckets and copies. -/
def writeHashTable (bucketCount copyCount : UInt32) (table : HashTable)
    (pHashTable : Nat → UInt64) : Nat → UInt64 := fun n =>
  if n < copyCount.toNat * bucketCount.toNat then
    (table (n / bucketCount.toNat) (n % bucketCount.toNat)).first
  else pHashTable n

end TableBuilder

end Tair
