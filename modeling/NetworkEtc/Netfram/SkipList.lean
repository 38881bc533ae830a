-- SUMMARY: The skip list: its nodes in memory, searching, inserting, and deleting by key, by range and by node.
import Mathlib.Order.Lattice
import Mathlib.Logic.Function.Basic

/-!
# `CSkipList`

Nodes are cells of a memory `ν → Node`; `NULL` is `none`. A loop over a chain is
given `miLength + 1` rounds: a chain holds each node of the list at most once, and a
search that needs more has lost its way and gives `none`. A write past the end of
the array `mapoUpdate` gives `none` as well.
-/

namespace Netfram

/-- A node. `mapoNexts` has `miLevel` entries in use. -/
structure SkipNode (ν K V : Type) where
  mtKey : K
  miLevel : Nat
  mtValue : V
  mpoPrev : Option ν
  mapoNexts : Nat → Option ν

structure CSkipList (ν K V : Type) where
  mem : ν → SkipNode ν K V
  mpoHead : ν
  mpoTail : Option ν
  miLength : Nat
  miLevel : Nat

namespace CSkipList

variable {ν K V : Type} [DecidableEq ν] [LinearOrder K]

/-- The size of `mapoUpdate`. -/
def updateSize : Nat := 100

/-- `Node* mapoUpdate[100]` -/
abbrev Update (ν : Type) := Nat → ν

def setNext (mem : ν → SkipNode ν K V) (x : ν) (i : Nat) (next : Option ν) : ν → SkipNode ν K V :=
  Function.update mem x
    { mem x with mapoNexts := Function.update (mem x).mapoNexts i next }

def setPrev (mem : ν → SkipNode ν K V) (x : ν) (prev : Option ν) : ν → SkipNode ν K V :=
  Function.update mem x { mem x with mpoPrev := prev }

/-- `Init`: `head` is the node `GetMNode` returned, of which only the links that are
there are set. -/
def init (mem : ν → SkipNode ν K V) (head : ν) (maxLvl : Nat) : CSkipList ν K V where
  mem := Function.update mem head
    { mem head with
      miLevel := maxLvl
      mpoPrev := none
      mapoNexts := fun i => if i < maxLvl then none else (mem head).mapoNexts i }
  mpoHead := head
  mpoTail := none
  miLength := 0
  miLevel := 1

/-- The inner loop of every search: go on at level `i` while the next key is above
`aKey`. -/
def walk (mem : ν → SkipNode ν K V) (i : Nat) (aKey : K) : Nat → ν → Option ν
  | 0, _ => none
  | fuel + 1, lpoNode =>
    match (mem lpoNode).mapoNexts i with
    | none => some lpoNode
    | some next => if aKey < (mem next).mtKey then walk mem i aKey fuel next else some lpoNode

/-- The search of `Insert` and of `Find(aKey, aapoUpdate)`, on the levels below the
given one: the last node above the key on each level, and on the lowest. -/
def search (s : CSkipList ν K V) (aKey : K) : Nat → ν → Update ν → Option (Update ν × ν)
  | 0, lpoNode, mapoUpdate => some (mapoUpdate, lpoNode)
  | i + 1, lpoNode, mapoUpdate =>
    match walk s.mem i aKey (s.miLength + 1) lpoNode with
    | none => none
    | some lpoNode =>
      if i < updateSize then search s aKey i lpoNode (Function.update mapoUpdate i lpoNode)
      else none

/-- The search of `Find(aKey)`, which keeps no update array. -/
def descend (s : CSkipList ν K V) (aKey : K) : Nat → ν → Option ν
  | 0, lpoNode => some lpoNode
  | i + 1, lpoNode =>
    match walk s.mem i aKey (s.miLength + 1) lpoNode with
    | none => none
    | some lpoNode => descend s aKey i lpoNode

/-- The node behind `lpoNode` if it has the key. -/
def matching (s : CSkipList ν K V) (aKey : K) (lpoNode : ν) : Option ν :=
  match (s.mem lpoNode).mapoNexts 0 with
  | none => none
  | some next => if (s.mem next).mtKey = aKey then some next else none

/-- `Find(aKey)` -/
def find (s : CSkipList ν K V) (aKey : K) : Option (Option ν) :=
  (s.descend aKey s.miLevel s.mpoHead).map (s.matching aKey)

/-- `mapoUpdate[i] = mpoHead` for the `n` levels from `level` on. -/
def raise (head : ν) (level : Nat) : Nat → Update ν → Option (Update ν)
  | 0, mapoUpdate => some mapoUpdate
  | n + 1, mapoUpdate =>
    if level < updateSize then raise head (level + 1) n (Function.update mapoUpdate level head)
    else none

/-- Link `x` behind its predecessors on the levels below the given one, from the
lowest up. -/
def linkLevels (mem : ν → SkipNode ν K V) (x : ν) (mapoUpdate : Update ν) :
    Nat → (ν → SkipNode ν K V)
  | 0 => mem
  | i + 1 =>
    let mem := linkLevels mem x mapoUpdate i
    let mem := setNext mem x i ((mem (mapoUpdate i)).mapoNexts i)
    setNext mem (mapoUpdate i) i (some x)

/-- The end of `Insert`: the backward link, the tail and the length. -/
def linkPrev (s : CSkipList ν K V) (x pred : ν) : CSkipList ν K V :=
  let mem := setPrev s.mem x (if pred = s.mpoHead then none else some pred)
  match (mem x).mapoNexts 0 with
  | some next => { s with mem := setPrev mem next (some x), miLength := s.miLength + 1 }
  | none => { s with mem := mem, mpoTail := some x, miLength := s.miLength + 1 }

/-- `Insert(Node&)` -/
def insert (s : CSkipList ν K V) (x : ν) : Option (CSkipList ν K V) :=
  let liLevel := (s.mem x).miLevel
  let lKey := (s.mem x).mtKey
  match s.search lKey s.miLevel s.mpoHead (fun _ => x) with
  | none => none
  | some (mapoUpdate, _) =>
    match raise s.mpoHead s.miLevel (liLevel - s.miLevel) mapoUpdate with
    | none => none
    | some mapoUpdate =>
      some (linkPrev
        { s with
          mem := linkLevels s.mem x mapoUpdate liLevel
          miLevel := max s.miLevel liLevel } x (mapoUpdate 0))

/-- Take `x` out of the levels below the given one, from the highest down. -/
def unlinkLevels (x : ν) (mapoUpdate : Update ν) :
    Nat → (ν → SkipNode ν K V) → (ν → SkipNode ν K V)
  | 0, mem => mem
  | i + 1, mem =>
    unlinkLevels x mapoUpdate i
      (if (mem (mapoUpdate i)).mapoNexts i = some x then
        setNext mem (mapoUpdate i) i ((mem x).mapoNexts i)
      else mem)

/-- The length loop: one less for every node of the chain from `temp` on. -/
def fixLength (mem : ν → SkipNode ν K V) : Nat → Option ν → Nat → Option Nat
  | _, none, miLength => some miLength
  | 0, some _, _ => none
  | fuel + 1, some temp, miLength => fixLength mem fuel ((mem temp).mapoNexts 0) (miLength - 1)

/-- `FIXLEVEL` -/
def fixLevel (head : SkipNode ν K V) : Nat → Nat
  | 0 => 0
  | 1 => 1
  | level + 2 => if head.mapoNexts (level + 1) = none then fixLevel head (level + 1) else level + 2

/-- The links of `x` to its neighbours on the lowest level. -/
def unlinkPrev (s : CSkipList ν K V) (x : ν) : CSkipList ν K V :=
  match (s.mem x).mapoNexts 0 with
  | some next => { s with mem := setNext (setPrev s.mem next (s.mem x).mpoPrev) x 0 none }
  | none => { s with mem := setNext s.mem x 0 none, mpoTail := (s.mem x).mpoPrev }

/-- `Delete(aKey)`: the node it took out, or `NULL`. -/
def delete (s : CSkipList ν K V) (aKey : K) : Option (CSkipList ν K V × Option ν) :=
  if s.miLength = 0 then some (s, none)
  else
    match s.search aKey s.miLevel s.mpoHead (fun _ => s.mpoHead) with
    | none => none
    | some (mapoUpdate, lpoNode) =>
      match s.matching aKey lpoNode with
      | none => some (s, none)
      | some x =>
        let s' := unlinkPrev { s with mem := unlinkLevels x mapoUpdate s.miLevel s.mem } x
        (fixLength s'.mem (s.miLength + 1) (some x) s'.miLength).map fun miLength =>
          ({ s' with miLength := miLength, miLevel := fixLevel (s'.mem s.mpoHead) s'.miLevel },
            some x)

/-! ## Deleting from a key on -/

/-- The way back of `FindLE`: from the tail to the first node above `aKey` that is as
high as the list, or to the head. -/
def retreat (s : CSkipList ν K V) (aKey : K) : Nat → ν → Option ν
  | 0, _ => none
  | fuel + 1, lpoNode =>
    if (s.mem lpoNode).mtKey ≤ aKey ∨ (s.mem lpoNode).miLevel ≠ s.miLevel then
      match (s.mem lpoNode).mpoPrev with
      | none => some s.mpoHead
      | some prev => retreat s aKey fuel prev
    else some lpoNode

/-- Where the search of `FindLE` starts. -/
def startLE (s : CSkipList ν K V) (aKey : K) (abReverse : Bool) (tail : ν) : Option ν :=
  if abReverse then s.retreat aKey (s.miLength + 1) tail else some s.mpoHead

/-- `FindLE(aKey, aapoUpdate, abReverse)`: the array, and the first node that is not above
the key. -/
def findLE (s : CSkipList ν K V) (aKey : K) (abReverse : Bool) (mapoUpdate : Update ν) :
    Option (Update ν × Option ν) :=
  match s.mpoTail with
  | none => some (mapoUpdate, none)
  | some tail =>
    if aKey < (s.mem tail).mtKey then some (mapoUpdate, none)
    else
      match s.startLE aKey abReverse tail with
      | none => none
      | some lpoNode =>
        (s.search aKey s.miLevel lpoNode mapoUpdate).map fun (mapoUpdate, lpoNode) =>
          (mapoUpdate, (s.mem lpoNode).mapoNexts 0)

/-- End the levels below the given one at their predecessors, from the highest down. -/
def cutLevels (mapoUpdate : Update ν) : Nat → (ν → SkipNode ν K V) → (ν → SkipNode ν K V)
  | 0, mem => mem
  | i + 1, mem => cutLevels mapoUpdate i (setNext mem (mapoUpdate i) i none)

/-- What `DeleteAfter` and `DeleteLE` do once they have found the first node to cut off. -/
def cutFrom (s : CSkipList ν K V) (mapoUpdate : Update ν) (lpoNode : ν) :
    Option (CSkipList ν K V × Option ν) :=
  let mem := cutLevels mapoUpdate s.miLevel s.mem
  (fixLength mem (s.miLength + 1) (some lpoNode) s.miLength).map fun miLength =>
    ({ s with
        mem
        mpoTail := (mem lpoNode).mpoPrev
        miLength
        miLevel := fixLevel (mem s.mpoHead) s.miLevel }, some lpoNode)

/-- `DeleteAfter(aKey)` -/
def deleteAfter (s : CSkipList ν K V) (aKey : K) : Option (CSkipList ν K V × Option ν) :=
  match s.search aKey s.miLevel s.mpoHead (fun _ => s.mpoHead) with
  | none => none
  | some (mapoUpdate, lpoNode) =>
    match s.matching aKey lpoNode with
    | none => some (s, none)
    | some lpoNode => s.cutFrom mapoUpdate lpoNode

/-- `DeleteLE(aKey)` -/
def deleteLE (s : CSkipList ν K V) (aKey : K) : Option (CSkipList ν K V × Option ν) :=
  if s.miLength = 0 then some (s, none)
  else
    match s.findLE aKey true (fun _ => s.mpoHead) with
    | none => none
    | some (_, none) => some (s, none)
    | some (mapoUpdate, some lpoNode) => s.cutFrom mapoUpdate lpoNode

/-! ## Deleting up to a key -/

/-- The `while` loop of `DeleteGE`, which goes along the topmost link of each node: the
last node it has passed, and the one it stops at. -/
def passTop (mem : ν → SkipNode ν K V) (aKey : K) : Nat → ν → Option ν → Option (ν × Option ν)
  | 0, _, _ => none
  | _ + 1, lpoNodePrev, none => some (lpoNodePrev, none)
  | fuel + 1, lpoNodePrev, some lpoNode =>
    if aKey ≤ (mem lpoNode).mtKey then
      passTop mem aKey fuel lpoNode ((mem lpoNode).mapoNexts ((mem lpoNode).miLevel - 1))
    else some (lpoNodePrev, some lpoNode)

/-- On the lowest level: part the node that the loop stopped at from those in front. -/
def partFront (mem : ν → SkipNode ν K V) (head : ν) :
    Option ν → Option (ν → SkipNode ν K V)
  | none => some mem
  | some lpoNode =>
    if (mem head).mapoNexts 0 = some lpoNode then some mem
    else
      match (mem lpoNode).mpoPrev with
      | none => none
      | some prev => some (setPrev (setNext mem prev 0 none) lpoNode none)

/-- The level loop of `DeleteGE`, on the levels below the given one. -/
def relinkHead (s : CSkipList ν K V) (aKey : K) :
    Nat → (ν → SkipNode ν K V) → ν → Option (ν → SkipNode ν K V)
  | 0, mem, _ => some mem
  | i + 1, mem, lpoNodePrev =>
    match passTop mem aKey (s.miLength + 2) lpoNodePrev (some lpoNodePrev) with
    | none => none
    | some (lpoNodePrev, lpoNode) =>
      match if i = 0 then partFront mem s.mpoHead lpoNode else some mem with
      | none => none
      | some mem => relinkHead s aKey i (setNext mem s.mpoHead i lpoNode) lpoNodePrev

/-- `DeleteGE(aKey)` -/
def deleteGE (s : CSkipList ν K V) (aKey : K) : Option (CSkipList ν K V × Option ν) :=
  if s.miLength = 0 then some (s, none)
  else
    match (s.mem s.mpoHead).mapoNexts 0 with
    | none => some (s, none)
    | some lpoNodeRet =>
      if (s.mem lpoNodeRet).mtKey < aKey then some (s, none)
      else
        match relinkHead s aKey s.miLevel s.mem lpoNodeRet with
        | none => none
        | some mem =>
          (fixLength mem (s.miLength + 1) (some lpoNodeRet) s.miLength).map fun miLength =>
            ({ s with mem, miLength, miLevel := fixLevel (mem s.mpoHead) s.miLevel },
              some lpoNodeRet)

/-! ## Deleting between two keys -/

/-- The `while` loop of `DeleteIn`: on along level `i` while the keys are not below
`aiEnd`. -/
def passLevel (mem : ν → SkipNode ν K V) (i : Nat) (aiEnd : K) :
    Nat → Option ν → Option (Option ν)
  | _, none => some none
  | 0, some _ => none
  | fuel + 1, some lpoNode =>
    if aiEnd ≤ (mem lpoNode).mtKey then
      passLevel mem i aiEnd fuel ((mem lpoNode).mapoNexts i)
    else some (some lpoNode)

/-- On the lowest level: end the chain of the nodes in front of `lpoNode`. -/
def endBefore (mem : ν → SkipNode ν K V) : Option ν → Option (ν → SkipNode ν K V)
  | none => some mem
  | some lpoNode => (mem lpoNode).mpoPrev.map fun prev => setNext mem prev 0 none

/-- The level loop of `DeleteIn`, on the levels below the given one. -/
def spliceLevels (s : CSkipList ν K V) (aiEnd : K) (mapoUpdate : Update ν) :
    Nat → (ν → SkipNode ν K V) → Option (ν → SkipNode ν K V)
  | 0, mem => some mem
  | i + 1, mem =>
    match passLevel mem i aiEnd (s.miLength + 1) ((mem (mapoUpdate i)).mapoNexts i) with
    | none => none
    | some lpoNode =>
      let mem := setNext mem (mapoUpdate i) i lpoNode
      match if i = 0 then endBefore mem lpoNode else some mem with
      | none => none
      | some mem => spliceLevels s aiEnd mapoUpdate i mem

/-- `DeleteIn` with the upper bound first. -/
def deleteBetween (s : CSkipList ν K V) (aiStart aiEnd : K) :
    Option (CSkipList ν K V × Option ν) :=
  match s.findLE aiStart false (fun _ => s.mpoHead) with
  | none => none
  | some (_, none) => some (s, none)
  | some (mapoUpdate, some lpoNodeRet) =>
    if (s.mem lpoNodeRet).mtKey < aiEnd then some (s, none)
    else
      match spliceLevels s aiEnd mapoUpdate s.miLevel s.mem with
      | none => none
      | some mem =>
        (fixLength mem (s.miLength + 1) (some lpoNodeRet) s.miLength).map fun miLength =>
          ({ s with mem, miLength, miLevel := fixLevel (mem s.mpoHead) s.miLevel },
            some lpoNodeRet)

/-- `DeleteIn(aiStart, aiEnd)`. Bounds in the wrong order are exchanged through a variable
of the type `int`: `toInt` is what comes back of a key. -/
def deleteIn (toInt : K → K) (s : CSkipList ν K V) (aiStart aiEnd : K) :
    Option (CSkipList ν K V × Option ν) :=
  if s.miLength = 0 then some (s, none)
  else if aiStart < aiEnd then s.deleteBetween aiEnd (toInt aiStart)
  else if aiStart = aiEnd then s.delete aiStart
  else s.deleteBetween aiStart aiEnd

/-! ## Deleting a node -/

/-- The inner loop of `Delete(Node*)`: on at level `i` up to `apoNode`, over the nodes that
are not below it. -/
def walkTo (mem : ν → SkipNode ν K V) (i : Nat) (apoNode : ν) : Nat → ν → Option ν
  | 0, _ => none
  | fuel + 1, lpoNode =>
    match (mem lpoNode).mapoNexts i with
    | none => some lpoNode
    | some next =>
      if next ≠ apoNode ∧ (mem apoNode).mtKey ≤ (mem next).mtKey then
        walkTo mem i apoNode fuel next
      else some lpoNode

/-- The search of `Delete(Node*)`, on the levels below the given one. -/
def searchNode (s : CSkipList ν K V) (apoNode : ν) :
    Nat → ν → Update ν → Option (Update ν × ν)
  | 0, lpoNode, mapoUpdate => some (mapoUpdate, lpoNode)
  | i + 1, lpoNode, mapoUpdate =>
    match walkTo s.mem i apoNode (s.miLength + 1) lpoNode with
    | none => none
    | some lpoNode =>
      if i < updateSize then
        searchNode s apoNode i lpoNode (Function.update mapoUpdate i lpoNode)
      else none

/-- `Delete(apoNode)`. What it takes out of the levels is `lpoNode`, where its search has
ended. -/
def deleteNode (s : CSkipList ν K V) : Option ν → Option (CSkipList ν K V × Option ν)
  | none => some (s, none)
  | some apoNode =>
    match s.searchNode apoNode s.miLevel s.mpoHead (fun _ => s.mpoHead) with
    | none => none
    | some (mapoUpdate, lpoNode) =>
      if (s.mem (mapoUpdate 0)).mapoNexts 0 ≠ some apoNode then some (s, some apoNode)
      else
        let s' := unlinkPrev
          { s with mem := unlinkLevels lpoNode mapoUpdate s.miLevel s.mem } apoNode
        (fixLength s'.mem (s.miLength + 1) (some apoNode) s'.miLength).map fun miLength =>
          ({ s' with miLength := miLength, miLevel := fixLevel (s'.mem s.mpoHead) s'.miLevel },
            some apoNode)

end CSkipList

end Netfram
