-- SUMMARY: The read side of a session: what `recv` delivers, and whether the filters hear of it.
import NetworkEtc.Netfram.SessionWrite

/-!
# Reading from a session

`CEventDo::Read` hands the read block to the filters, unless what it has received fills the
block to its end. Then it makes room, for another round of its loop it seems; but the loop is
a `do while(false)`, and `continue` leaves it.
-/

namespace Netfram

open Library.Printf

/-- What the socket has for `recv`. -/
inductive Arrival where
  | bytes (arrived : List UInt8)
  /-- The peer has closed. -/
  | eof
  | again
  | failed

/-- What a call of `Read` leaves: its answer, the read block, the block that
`FireMessageRecived` has been called with, and whether the session is closed. -/
structure ReadResult where
  code : Int
  block : CMemblock
  fired : Option CMemblock
  closed : Bool

namespace CMemblock

/-- `recv` copies bytes to the write pointer. -/
def recv (data : CMemblock) (bytes : List UInt8) : CMemblock :=
  { data with mpcBase := store data.mpcBase data.mpcWritePt bytes }

/-- The start of `Read`: a block that is full is doubled. -/
def makeSpace (data : CMemblock) (heap : Heap) : Option CMemblock :=
  if data.getSpace = 0 then data.resize heap (data.getCapacity * 2 % 2 ^ 64) else some data

/-- The bytes that `recv` delivers. -/
def received (data : CMemblock) (arrived : List UInt8) : List UInt8 :=
  arrived.take (min data.getDirectSpace maxTransfer)

/-- `Read` after `recv` has delivered some bytes. -/
def deliver (data : CMemblock) (heap : Heap) (bytes : List UInt8) : Option ReadResult :=
  let data := (data.recv bytes).setWrite bytes.length
  if data.getDirectSpace = 0 then
    let grown :=
      if bytes.length < data.getSpace then some data.shrink
      else data.resize heap (data.getCapacity * 2 % 2 ^ 64)
    grown.map fun data => ⟨minaOk, data, none, false⟩
  else some ⟨minaOk, data, some data, false⟩

/-- `CEventDo::Read` -/
def eventDoRead (data : CMemblock) (heap : Heap) (arrival : Arrival) : Option ReadResult :=
  (data.makeSpace heap).bind fun data =>
    match arrival with
    | .bytes arrived =>
      match data.received arrived with
      | [] => some ⟨minaError, data, none, true⟩
      | byte :: bytes => data.deliver heap (byte :: bytes)
    | .eof => some ⟨minaError, data, none, true⟩
    | .again => some ⟨minaAgain, data, none, false⟩
    | .failed => some ⟨minaError, data, none, true⟩

/-- The bytes that `recv` can deliver, given the block as `Read` finds it. -/
def room (data : CMemblock) : Nat :=
  if data.getSpace = 0 then data.getCapacity else data.getDirectSpace

variable {data data' : CMemblock} {heap : Heap} {arrived bytes : List UInt8} {r : ReadResult}

theorem Layout.makeSpace (h : data.Layout) (hspace : data.makeSpace heap = some data') :
    data'.Layout ∧ data'.unread = data.unread ∧ data'.getDirectSpace = data.room := by
  have hsize := h.size_le
  have hpos := h.capacity_pos
  have hcap := h.capacity_le
  unfold CMemblock.makeSpace at hspace
  unfold room
  split at hspace
  · next hfull =>
    obtain ⟨hlayout, hunread, -, -⟩ := h.resize hspace
    have hdouble : data.getCapacity * 2 % 2 ^ 64 = data.muCapacity * 2 := by
      rw [getCapacity]
      omega
    rw [CMemblock.resize, hdouble, if_neg (by omega)] at hspace
    obtain ⟨memory, -, rfl⟩ := Option.map_eq_some_iff.mp hspace
    refine ⟨hlayout, hunread, ?_⟩
    rw [if_pos hfull]
    rw [getSpace] at hfull
    simp only [getDirectSpace, getCapacity]
    omega
  · next hroom =>
    obtain rfl := Option.some.inj hspace
    rw [if_neg hroom]
    exact ⟨h, rfl, rfl⟩

/-- The bytes are behind the unread ones, and the filters hear of them unless they fill the
block to its end. -/
theorem Layout.deliver (h : data.Layout) (hfit : bytes.length ≤ data.getDirectSpace)
    (hdeliver : data.deliver heap bytes = some r) :
    r.code = minaOk ∧ r.block.unread = data.unread ++ bytes ∧
      (r.fired = some r.block ↔ bytes.length < data.getDirectSpace) := by
  have hend := h.write_le
  have happend : (data.recv bytes).setWrite bytes.length = data.append bytes :=
    if_neg (Nat.not_lt_of_le hfit)
  have hspace : (data.append bytes).getDirectSpace = data.getDirectSpace - bytes.length := by
    simp only [CMemblock.append, getDirectSpace]
    omega
  obtain ⟨hlayout, hunread⟩ := h.append bytes (by rw [getDirectSpace] at hfit; omega)
  unfold CMemblock.deliver at hdeliver
  simp only [happend, hspace] at hdeliver
  split at hdeliver
  · next hfull =>
    obtain ⟨block, hgrown, rfl⟩ := Option.map_eq_some_iff.mp hdeliver
    refine ⟨rfl, ?_, iff_of_false (Option.some_ne_none block).symm (by omega)⟩
    rw [← hunread]
    split at hgrown
    · obtain rfl := Option.some.inj hgrown
      exact hlayout.shrink.2
    · exact (hlayout.resize hgrown).2.1
  · next hroom =>
    obtain rfl := Option.some.inj hdeliver
    exact ⟨rfl, hunread, iff_of_true rfl (by omega)⟩

/-- `Read` that answers `MINA_OK` has the bytes behind the earlier ones in the block, and has
told the filters. -/
def Delivers (data : CMemblock) (bytes : List UInt8) (r : ReadResult) : Prop :=
  r.code = minaOk → r.block.unread = data.unread ++ bytes ∧ r.fired = some r.block

/-- The filters are told of what is received if and only if that leaves room behind it: not
all the room there was has been filled. -/
theorem delivers_iff (h : data.Layout) (hpos : 0 < min arrived.length (min data.room maxTransfer))
    (hread : data.eventDoRead heap (.bytes arrived) = some r) :
    data.Delivers (arrived.take (min data.room maxTransfer)) r ↔
      min arrived.length maxTransfer < data.room := by
  obtain ⟨grown, hspace, hread⟩ := Option.bind_eq_some_iff.mp hread
  obtain ⟨hlayout, hunread, hroom⟩ := h.makeSpace hspace
  have hreceived : grown.received arrived = arrived.take (min data.room maxTransfer) := by
    rw [received, hroom]
  have hlen : (arrived.take (min data.room maxTransfer)).length =
      min arrived.length (min data.room maxTransfer) := by
    rw [List.length_take, Nat.min_comm]
  rw [← hlen] at hpos
  simp only [hreceived] at hread
  generalize arrived.take (min data.room maxTransfer) = bytes at *
  cases bytes with
  | nil => exact absurd hpos (by simp)
  | cons byte bytes =>
    have hfit : (byte :: bytes).length ≤ grown.getDirectSpace := by
      rw [hlen, hroom]
      exact (Nat.min_le_right ..).trans (Nat.min_le_left ..)
    obtain ⟨hcode, hbytes, hfired⟩ := hlayout.deliver hfit hread
    rw [hunread] at hbytes
    rw [hlen, hroom] at hfired
    have hless : min arrived.length (min data.room maxTransfer) < data.room ↔
        min arrived.length maxTransfer < data.room := by
      omega
    rw [← hless, ← hfired]
    exact ⟨fun hdelivers => (hdelivers hcode).2, fun hfired _ => ⟨hbytes, hfired⟩⟩

/-- A block of eight bytes of which two are waiting. -/
def twoWaiting : CMemblock := ⟨[1, 2, 0, 0, 0, 0, 0, 0], 8, 0, 2, 8, 2⟩

theorem layout_twoWaiting : twoWaiting.Layout :=
  ⟨rfl, by decide, by decide, by decide, by decide, rfl, rfl⟩

theorem delivers_three : ∃ r, twoWaiting.eventDoRead zeroHeap (.bytes [3, 4, 5]) = some r ∧
    r.code = minaOk ∧ twoWaiting.Delivers ([3, 4, 5].take (min twoWaiting.room maxTransfer)) r := by
  have hpos : 0 < min ([3, 4, 5] : List UInt8).length (min twoWaiting.room maxTransfer) := by
    decide
  have hless : min ([3, 4, 5] : List UInt8).length maxTransfer < twoWaiting.room := by decide
  obtain ⟨r, hread, hcode⟩ : ∃ r, twoWaiting.eventDoRead zeroHeap (.bytes [3, 4, 5]) = some r ∧
      r.code = minaOk := ⟨_, rfl, rfl⟩
  exact ⟨r, hread, hcode, (delivers_iff layout_twoWaiting hpos hread).mpr hless⟩

/-- Six bytes fill the block: it is doubled, and nobody is told. -/
theorem delivers_six : twoWaiting.Layout ∧
    ∃ r, twoWaiting.eventDoRead zeroHeap (.bytes [3, 4, 5, 6, 7, 8]) = some r ∧
      r.code = minaOk ∧ r.fired = none ∧ ¬ twoWaiting.Delivers [3, 4, 5, 6, 7, 8] r := by
  refine ⟨layout_twoWaiting, _, rfl, rfl, rfl, fun hdelivers => ?_⟩
  exact absurd (hdelivers rfl).2 (Option.some_ne_none _).symm

end CMemblock

end Netfram
