-- SUMMARY: The memory block: its read and write positions and the bytes between them.
import NetworkEtc.Library.Printf

/-!
# `CMemblock`

A block is a piece of memory with a read and a write pointer into it. Pointers are
offsets from `mpcBase`. A copy to an address past the end of the memory is not
stopped: it makes `mpcBase` longer than the memory the block was given, which is
how a write beyond `mpcEnd` shows.

Sizes are of type `size_t`; where a difference of them can wrap around, `subSize`
says so.
-/

namespace Netfram

open Library Library.Printf

/-- What `new char[n]` gives for each `n`: memory with whatever it holds, or `none`
when it throws. No piece of memory is larger than the address space. -/
structure Heap where
  new : Nat → Option (List UInt8)
  length_new : ∀ {n memory}, new n = some memory → memory.length = n
  new_le : ∀ {n memory}, new n = some memory → n ≤ 2 ^ 57

/-- The difference of two `size_t`. -/
def subSize (a b : Nat) : Nat := (a + (2 ^ 64 - b % 2 ^ 64)) % 2 ^ 64

structure CMemblock where
  /-- The memory at `mpcBase`. -/
  mpcBase : List UInt8
  mpcEnd : Nat
  mpcReadPt : Nat
  mpcWritePt : Nat
  muCapacity : Nat
  muSize : Nat
  deriving DecidableEq

namespace CMemblock

/-- `Init` without data, on memory that `new` returned with whatever it holds. -/
def init (memory : List UInt8) : CMemblock where
  mpcBase := memory
  mpcEnd := memory.length
  mpcReadPt := 0
  mpcWritePt := 0
  muCapacity := memory.length
  muSize := 0

/-- The memory from the read pointer on. -/
def getRead (data : CMemblock) : List UInt8 := data.mpcBase.drop data.mpcReadPt

def getWrite (data : CMemblock) : Nat := data.mpcWritePt

def getSize (data : CMemblock) : Nat := data.muSize

def getCapacity (data : CMemblock) : Nat := data.muCapacity

def getDirectSpace (data : CMemblock) : Nat := data.mpcEnd - data.mpcWritePt

def reset (data : CMemblock) : CMemblock :=
  { data with mpcReadPt := 0, mpcWritePt := 0, muSize := 0 }

/-- `SetWrite(size_t)`. A size beyond the end is refused and changes nothing. -/
def setWrite (data : CMemblock) (auSize : Nat) : CMemblock :=
  if data.mpcEnd - data.mpcWritePt < auSize then data
  else { data with mpcWritePt := data.mpcWritePt + auSize, muSize := data.muSize + auSize }

/-- `SetWrite(char*)`, to an address of the memory. -/
def setWriteTo (data : CMemblock) (apcWrite : Nat) : CMemblock :=
  if apcWrite < data.mpcReadPt ∨ data.mpcEnd < apcWrite then data
  else { data with mpcWritePt := apcWrite, muSize := apcWrite - data.mpcReadPt }

def getSpace (data : CMemblock) : Nat := data.muCapacity - data.muSize

/-- `Resize`: move the unread bytes to larger memory. It throws if there is none. -/
def resize (data : CMemblock) (heap : Heap) (auSize : Nat) : Option CMemblock :=
  if auSize ≤ data.muCapacity then some data
  else
    (heap.new auSize).map fun lpcAddr =>
      { mpcBase := store lpcAddr 0 (data.getRead.take data.muSize)
        mpcEnd := auSize
        mpcReadPt := 0
        mpcWritePt := data.muSize
        muCapacity := auSize
        muSize := data.muSize }

/-- The loop of `Expand`: `luSize <<= 2` until the unsigned difference is above 0.
After 32 rounds `luSize` is 0 and stays 0: out of fuel is a loop that never ends. -/
def expandSize (luSize muSize auSize : Nat) : Nat → Option Nat
  | 0 => none
  | fuel + 1 =>
    let luSize := luSize * 4 % 2 ^ 64
    if 0 < subSize (subSize luSize muSize) auSize then some luSize
    else expandSize luSize muSize auSize fuel

/-- `Expand`. The difference of sizes is taken as an `ssize_t`. -/
def expand (data : CMemblock) (heap : Heap) (auSize : Nat) : Option CMemblock :=
  let liRemain := subSize (subSize data.muCapacity data.muSize) auSize
  if 2 ^ 63 ≤ liRemain then -- negative
    (expandSize data.muCapacity data.muSize auSize 33).bind (data.resize heap)
  else some data

/-- `memmove` of the unread bytes to the start of the memory. -/
def shrink (data : CMemblock) : CMemblock :=
  { data with
    mpcBase := store data.mpcBase 0 (data.getRead.take data.muSize)
    mpcReadPt := 0
    mpcWritePt := data.muSize }

/-- The compaction inside `Write`, by the distance of the pointers. -/
def compact (data : CMemblock) : CMemblock :=
  let liRemain := data.mpcWritePt - data.mpcReadPt
  { data with
    mpcBase := store data.mpcBase 0 (data.getRead.take liRemain)
    mpcReadPt := 0
    mpcWritePt := liRemain }

/-- `memcpy` to the write pointer, which moves on. -/
def append (data : CMemblock) (bytes : List UInt8) : CMemblock :=
  { data with
    mpcBase := store data.mpcBase data.mpcWritePt bytes
    mpcWritePt := data.mpcWritePt + bytes.length
    muSize := data.muSize + bytes.length }

/-- `Write(char const*, size_t)` -/
def write (data : CMemblock) (heap : Heap) (bytes : List UInt8) : Option CMemblock :=
  (data.expand heap bytes.length).map fun data =>
    if subSize data.mpcEnd data.mpcWritePt < bytes.length then data.compact.append bytes
    else data.append bytes

/-- `Read(char*, size_t)`: the bytes it copied, or -1. -/
def read (data : CMemblock) (auSize : Nat) : Option (List UInt8) × CMemblock :=
  if data.muSize = 0 then (none, data)
  else if data.muSize < auSize then
    (some (data.getRead.take data.muSize), { data with mpcReadPt := data.mpcWritePt, muSize := 0 })
  else
    (some (data.getRead.take auSize),
      { data with mpcReadPt := data.mpcReadPt + auSize, muSize := data.muSize - auSize })

/-- `SetRead(size_t)`: how many bytes it skipped, or -1 (and then `errno` is
`ENODATA`). -/
def setRead (data : CMemblock) (auSize : Nat) : Option Nat × CMemblock :=
  if data.muSize = 0 ∨ data.muSize < auSize then (none, data)
  else
    (some auSize,
      { data with mpcReadPt := data.mpcReadPt + auSize, muSize := data.muSize - auSize })

/-- The bytes a reader of the block sees. -/
def unread (data : CMemblock) : List UInt8 := data.getRead.take data.muSize

end CMemblock

end Netfram
