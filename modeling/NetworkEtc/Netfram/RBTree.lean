-- SUMMARY: The red-black tree: its nodes in memory, rotating, inserting, and deleting.
import NetworkEtc.Library.RedBlack
import Mathlib.Logic.Function.Basic
import Mathlib.Data.UInt

/-!
# `CRBTree`

The fields of the nodes are functions of the node; `NULL` is `none`, and a step that
would follow it gives `none`. The sentinel is a node like the others, and its fields
are as uninitialised as in the source, but for its colour.

`mpoLeft` and `mpoRight` are the two sides of one field `child`, so that a function
and its mirror image are one function with a `Side`. The loops are given `fuel`: the
source has no bound for them. `less a b` is the test `(IKey)(a - b) < 0` on keys.
-/

namespace Netfram

open Library (Side)

structure CRBTree (ν K : Type) where
  mtKey : ν → K
  child : Side → ν → Option ν
  mpoParent : ν → Option ν
  /-- `RBT_IS_RED` -/
  mcColor : ν → Bool
  mpoRoot : ν
  moSentinel : ν

namespace CRBTree

variable {ν K : Type} [DecidableEq ν]

def mpoLeft (s : CRBTree ν K) : ν → Option ν := s.child .left

def mpoRight (s : CRBTree ν K) : ν → Option ν := s.child .right

def setChild (s : CRBTree ν K) (d : Side) (x : ν) (p : Option ν) : CRBTree ν K :=
  { s with child := Function.update s.child d (Function.update (s.child d) x p) }

def setParent (s : CRBTree ν K) (x : ν) (p : Option ν) : CRBTree ν K :=
  { s with mpoParent := Function.update s.mpoParent x p }

def setColor (s : CRBTree ν K) (x : ν) (red : Bool) : CRBTree ν K :=
  { s with mcColor := Function.update s.mcColor x red }

def setRoot (s : CRBTree ν K) (x : ν) : CRBTree ν K :=
  { s with mpoRoot := x }

def setKey (s : CRBTree ν K) (x : ν) (k : K) : CRBTree ν K :=
  { s with mtKey := Function.update s.mtKey x k }

/-- The constructor. -/
def init (mtKey : ν → K) (child : Side → ν → Option ν) (mpoParent : ν → Option ν)
    (mcColor : ν → Bool) (moSentinel : ν) : CRBTree ν K :=
  setColor ⟨mtKey, child, mpoParent, mcColor, moSentinel, moSentinel⟩ moSentinel false

def empty (s : CRBTree ν K) : Bool := s.mpoRoot = s.moSentinel

/-- Let `lpoTemp` take the place of `apoNode` below the parent of `apoNode`. The side
`d` is looked at first. -/
def relink (d : Side) (s : CRBTree ν K) (apoNode lpoTemp : ν) : Option (CRBTree ν K) := do
  let parent ← s.mpoParent apoNode
  if s.child d parent = some apoNode then
    return s.setChild d parent (some lpoTemp)
  else
    return s.setChild d.other parent (some lpoTemp)

/-- The same, where `apoNode` may be the root. -/
def replace (d : Side) (s : CRBTree ν K) (apoNode lpoTemp : ν) : Option (CRBTree ν K) :=
  if apoNode = s.mpoRoot then some (s.setRoot lpoTemp) else s.relink d apoNode lpoTemp

/-- The child of `apoNode` on the other side comes up, and `apoNode` goes down to
the side `d`. -/
def rotate (d : Side) (s : CRBTree ν K) (apoNode : ν) : Option (CRBTree ν K) := do
  let lpoTemp ← s.child d.other apoNode
  let inner ← s.child d lpoTemp
  let s := s.setChild d.other apoNode (some inner)
  let s := if inner ≠ s.moSentinel then s.setParent inner (some apoNode) else s
  let s := s.setParent lpoTemp (s.mpoParent apoNode)
  let s ← s.replace d apoNode lpoTemp
  let s := s.setChild d lpoTemp (some apoNode)
  return s.setParent apoNode (some lpoTemp)

def leftRotate (s : CRBTree ν K) (apoNode : ν) : Option (CRBTree ν K) := s.rotate .left apoNode

def rightRotate (s : CRBTree ν K) (apoNode : ν) : Option (CRBTree ν K) := s.rotate .right apoNode

/-! ## Insert -/

/-- `(IKey)(a - b) < 0` for keys of 64 bits: the difference is cut to 32 bits. -/
def keyLess (a b : UInt64) : Bool := (a - b).toUInt32.toInt32 < 0

/-- The loop of `Insert(apoTemp, apoNode)`: the node to hang `apoNode` below, and the
side. -/
def descend (less : K → K → Bool) (s : CRBTree ν K) (apoNode : ν) :
    Nat → ν → Option (ν × Side)
  | 0, _ => none
  | fuel + 1, apoTemp => do
    let side := if less (s.mtKey apoNode) (s.mtKey apoTemp) then Side.left else .right
    let next ← s.child side apoTemp
    if next = s.moSentinel then return (apoTemp, side)
    else descend less s apoNode fuel next

/-- `Insert(apoTemp, apoNode)` -/
def insertFrom (less : K → K → Bool) (fuel : Nat) (s : CRBTree ν K) (apoTemp apoNode : ν) :
    Option (CRBTree ν K) := do
  let (apoTemp, side) ← s.descend less apoNode fuel apoTemp
  let s := s.setChild side apoTemp (some apoNode)
  let s := s.setParent apoNode (some apoTemp)
  let s := s.setChild .left apoNode (some s.moSentinel)
  let s := s.setChild .right apoNode (some s.moSentinel)
  return s.setColor apoNode true

/-- The end of a round of the loop of `Insert`: the parent comes up. -/
def insertRotate (d : Side) (s : CRBTree ν K) (apoNode : ν) : Option (CRBTree ν K × ν) := do
  let parent ← s.mpoParent apoNode
  let s := s.setColor parent false
  let grand ← s.mpoParent parent
  let s := s.setColor grand true
  return (← s.rotate d.other grand, apoNode)

/-- One round of the loop of `Insert`, where the parent is on the side `d` of the
grandparent: the tree after it, and the node to go on with. -/
def insertRound (d : Side) (s : CRBTree ν K) (apoNode parent grand : ν) :
    Option (CRBTree ν K × ν) := do
  let lpoTemp ← s.child d.other grand
  if s.mcColor lpoTemp then
    let s := s.setColor parent false
    let s := s.setColor lpoTemp false
    return (s.setColor grand true, grand)
  else if s.child d.other parent = some apoNode then
    let s ← s.rotate d parent
    s.insertRotate d parent
  else s.insertRotate d apoNode

/-- The loop of `Insert`. -/
def insertLoop : Nat → CRBTree ν K → ν → Option (CRBTree ν K)
  | 0, _, _ => none
  | fuel + 1, s, apoNode =>
    if apoNode = s.mpoRoot then some s
    else do
      let parent ← s.mpoParent apoNode
      if s.mcColor parent then
        let grand ← s.mpoParent parent
        let d := if s.child .left grand = some parent then Side.left else .right
        let (s, apoNode) ← s.insertRound d apoNode parent grand
        insertLoop fuel s apoNode
      else return s

def insert (less : K → K → Bool) (fuel : Nat) (s : CRBTree ν K) (apoNode : ν) :
    Option (CRBTree ν K) :=
  if s.mpoRoot = s.moSentinel then
    let s := s.setParent apoNode none
    let s := s.setChild .left apoNode (some s.moSentinel)
    let s := s.setChild .right apoNode (some s.moSentinel)
    some ((s.setColor apoNode false).setRoot apoNode)
  else do
    let s ← s.insertFrom less fuel s.mpoRoot apoNode
    let s ← s.insertLoop fuel apoNode
    return s.setColor s.mpoRoot false

/-! ## Delete -/

/-- The loop of `SeekToFirst`, which `Delete` has as well, and on the other side that of
`SeekToLast`. -/
def outermost (d : Side) (s : CRBTree ν K) : Nat → ν → Option ν
  | 0, _ => none
  | fuel + 1, mpoNode =>
    if mpoNode = s.moSentinel then some mpoNode
    else do
      let next ← s.child d mpoNode
      if next ≠ s.moSentinel then outermost d s fuel next else return mpoNode

def leftmost (s : CRBTree ν K) : Nat → ν → Option ν := s.outermost .left

/-- `Iterator::SeekToFirst`, and the node the iterator is at. -/
def seekToFirst (fuel : Nat) (s : CRBTree ν K) : Option ν := s.leftmost fuel s.mpoRoot

/-- The nodes in the order in which `MidTrival` comes to them. -/
def midTrival (s : CRBTree ν K) : Nat → ν → Option (List ν)
  | 0, _ => none
  | fuel + 1, apoNode =>
    if apoNode = s.moSentinel then some []
    else do
      let left ← s.child .left apoNode
      let right ← s.child .right apoNode
      (if left ≠ s.moSentinel then midTrival s fuel left else some []).bind fun before =>
        (if right ≠ s.moSentinel then midTrival s fuel right else some []).map fun after =>
          before ++ apoNode :: after

/-- The links of a node that has left the tree. -/
def forget (s : CRBTree ν K) (apoNode : ν) : CRBTree ν K :=
  let s := s.setChild .left apoNode none
  let s := s.setChild .right apoNode none
  s.setParent apoNode none

/-- The end of a round of the loop of `Delete`: `tempw` comes up, and the loop is over. -/
def deleteRotate (d : Side) (s : CRBTree ν K) (lpoTemp tempw : ν) : Option (CRBTree ν K × ν) := do
  let parent ← s.mpoParent lpoTemp
  let s := s.setColor tempw (s.mcColor parent)
  let s := s.setColor parent false
  let far ← s.child d.other tempw
  let s := s.setColor far false
  let s ← s.rotate d parent
  return (s, s.mpoRoot)

/-- The second half of a round of the loop of `Delete`, where `tempw` is black. -/
def deleteBlack (d : Side) (s : CRBTree ν K) (lpoTemp tempw : ν) : Option (CRBTree ν K × ν) := do
  let near ← s.child d tempw
  let far ← s.child d.other tempw
  if !s.mcColor near && !s.mcColor far then
    return (s.setColor tempw true, ← s.mpoParent lpoTemp)
  else if !s.mcColor far then
    let s := s.setColor near false
    let s := s.setColor tempw true
    let s ← s.rotate d.other tempw
    let parent ← s.mpoParent lpoTemp
    let tempw ← s.child d.other parent
    s.deleteRotate d lpoTemp tempw
  else s.deleteRotate d lpoTemp tempw

/-- One round of the loop of `Delete`, for a node on the side `d` of its parent: the
tree after it, and the node to go on with. -/
def deleteRound (d : Side) (s : CRBTree ν K) (lpoTemp parent : ν) :
    Option (CRBTree ν K × ν) := do
  let tempw ← s.child d.other parent
  if s.mcColor tempw then
    let s := s.setColor tempw false
    let s := s.setColor parent true
    let s ← s.rotate d parent
    let parent ← s.mpoParent lpoTemp
    let tempw ← s.child d.other parent
    s.deleteBlack d lpoTemp tempw
  else s.deleteBlack d lpoTemp tempw

/-- The loop of `Delete`, and what follows it. -/
def deleteLoop : Nat → CRBTree ν K → ν → Option (CRBTree ν K)
  | 0, _, _ => none
  | fuel + 1, s, lpoTemp =>
    if lpoTemp ≠ s.mpoRoot ∧ s.mcColor lpoTemp = false then do
      let parent ← s.mpoParent lpoTemp
      let d := if s.child .left parent = some lpoTemp then Side.left else .right
      let (s, lpoTemp) ← s.deleteRound d lpoTemp parent
      deleteLoop fuel s lpoTemp
    else some (s.setColor lpoTemp false)

/-- The node that leaves its place, and the one that takes the place. -/
def chooseSubst (fuel : Nat) (s : CRBTree ν K) (apoNode left right : ν) : Option (ν × ν) :=
  if left = s.moSentinel then some (apoNode, right)
  else if right = s.moSentinel then some (apoNode, left)
  else do
    let subst ← s.leftmost fuel s.mpoRoot
    let left ← s.child .left subst
    if left ≠ s.moSentinel then return (subst, left)
    else return (subst, ← s.child .right subst)

/-- Let `subst` have the links and the colour of `apoNode`, and its neighbours point to it. -/
def takePlace (s : CRBTree ν K) (apoNode subst : ν) : Option (CRBTree ν K) := do
  let s := s.setChild .left subst (s.child .left apoNode)
  let s := s.setChild .right subst (s.child .right apoNode)
  let s := s.setParent subst (s.mpoParent apoNode)
  let s := s.setColor subst (s.mcColor apoNode)
  let s ← s.replace .left apoNode subst
  let left ← s.child .left subst
  let s := if left ≠ s.moSentinel then s.setParent left (some subst) else s
  let right ← s.child .right subst
  return if right ≠ s.moSentinel then s.setParent right (some subst) else s

/-- Let `subst`, which has left its place to `lpoTemp`, stand for `apoNode`. -/
def standIn (s : CRBTree ν K) (apoNode subst lpoTemp : ν) : Option (CRBTree ν K) :=
  let s :=
    if s.mpoParent subst = some apoNode then s.setParent lpoTemp (some subst)
    else s.setParent lpoTemp (s.mpoParent subst)
  s.takePlace apoNode subst

/-- `Delete` from the moment `subst` and `lpoTemp` are chosen. -/
def deleteAs (fuel : Nat) (s : CRBTree ν K) (apoNode subst lpoTemp : ν) : Option (CRBTree ν K) :=
  if subst = s.mpoRoot then
    some (((s.setRoot lpoTemp).setColor lpoTemp false).forget apoNode)
  else do
    let red := s.mcColor subst
    let s ← s.relink .left subst lpoTemp
    let s ←
      if subst = apoNode then some (s.setParent lpoTemp (s.mpoParent subst))
      else s.standIn apoNode subst lpoTemp
    let s := s.forget apoNode
    if red then return s else s.deleteLoop fuel lpoTemp

def delete (fuel : Nat) (s : CRBTree ν K) (apoNode : ν) : Option (CRBTree ν K) :=
  match s.child .left apoNode, s.child .right apoNode with
  | some left, some right => do
    let (subst, lpoTemp) ← s.chooseSubst fuel apoNode left right
    s.deleteAs fuel apoNode subst lpoTemp
  | _, _ => some s

end CRBTree

end Netfram
