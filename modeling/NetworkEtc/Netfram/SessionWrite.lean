-- SUMMARY: The write side of a TCP session: messages, the write block, and what `send` accepts of it.
import NetworkEtc.Netfram.ByteQueue

/-!
# Writing to a session

A message is copied to the session's write block, and the block is handed to
`send` at once (the direct-write configuration) and again whenever the poller
finds the socket writable. What `send` does is not ours: each call comes with the
kernel's answers.
-/

namespace Netfram

open Library Library.Printf

/-- The values of `errno` that are told apart. -/
inductive Errno where
  | eagain
  | eintr
  | enodata
  | other
  deriving DecidableEq

/-- The answer of `send` that `COsAction::Send` returns on. -/
inductive Answer where
  /-- There was room for so many bytes and one more. -/
  | room (n : Nat)
  | zero
  | again
  | failed
  deriving DecidableEq

/-- What the kernel answers during one call of `COsAction::Send`: some `EINTR`, and
then `answer`. `errno` is what an earlier call has left there. -/
structure Kernel where
  errno : Errno
  interrupted : Nat
  answer : Answer

/-- On Linux `send` transfers at most this many bytes. -/
def maxTransfer : Nat := 0x7ffff000

def minaOk : Int := 0
def minaError : Int := -1
def minaAgain : Int := -2

/-- The write event of a session. -/
structure Session where
  block : CMemblock
  /-- The bytes `send` has accepted so far. -/
  sent : List UInt8
  ready : Bool
  /-- The poller waits for `EPOLLOUT`. -/
  epollout : Bool
  closed : Bool

namespace Session

/-- The loop of `COsAction::Send`, which goes round on `EINTR`. -/
def sendLoop (auSize : Nat) (answer : Answer) : Nat → Errno → Session → Int × Errno × Session
  | 0, errno, s =>
    match answer with
    | .room n =>
      let liSize := min (n + 1) (min auSize maxTransfer)
      (liSize, errno,
        { s with
          sent := s.sent ++ s.block.getRead.take liSize
          ready := s.ready && decide (auSize ≤ liSize) })
    | .zero => (0, errno, { s with ready := false })
    | .again => (minaAgain, .eagain, { s with ready := false })
    | .failed => (minaError, .other, s)
  | interrupted + 1, _, s => sendLoop auSize answer interrupted .eintr { s with ready := false }

/-- `COsAction::Send`: what it returns and what it leaves in `errno`. -/
def send (s : Session) (auSize : Nat) (kernel : Kernel) : Int × Errno × Session :=
  sendLoop auSize kernel.answer kernel.interrupted kernel.errno s

/-- The end of `CEventDo::Write`: `block` is the write block without what was sent. -/
def conclude (s : Session) (abPost : Bool) (errno : Errno) (block : CMemblock) : Int × Session :=
  if block.getSize ≠ 0 then
    if errno = .eagain ∨ errno = .eintr then (minaAgain, { s with block := block })
    else (minaError, { s with block := block, closed := true })
  else (minaOk, { s with block := block.reset, epollout := s.epollout && !abPost })

/-- `CEventDo::Write`. The size goes from `ssize_t` through `int` to `size_t`. -/
def eventDoWrite (s : Session) (abPost : Bool) (kernel : Kernel) : Int × Session :=
  if s.block.getSize = 0 then
    (minaOk, { s with epollout := s.epollout && !abPost })
  else
    let (liSize, errno, s) := s.send s.block.getSize kernel
    let liWriteSize := liSize.bmod (2 ^ 32)
    let (skipped, block) := s.block.setRead (liWriteSize % 2 ^ 64).toNat
    s.conclude abPost (if skipped = none then .enodata else errno) block

/-- Make room in the write block and copy the message there. -/
def take (s : Session) (heap : Heap) (message : CMemblock) : Option Session :=
  let grown :=
    if s.block.getSpace < message.getSize then
      let luSize := s.block.getCapacity * 2 % 2 ^ 64
      let total := s.block.getSize + message.getSize
      s.block.resize heap (if total < luSize then luSize else total)
    else if s.block.getDirectSpace < message.getSize then some s.block.shrink
    else some s.block
  (grown.bind (·.write heap (message.getRead.take message.getSize))).map
    fun block => { s with block := block }

/-- `CFilterTail::FilterWrite` of a message that is in another block than the
session's own. -/
def filterWrite (s : Session) (heap : Heap) (message : Option CMemblock) (kernel : Kernel) :
    Option Session :=
  let copied : Option Session :=
    match message with
    | none => some s
    | some message => if message.getSize ≠ 0 then s.take heap message else some s
  copied.map fun s =>
    if s.block.getSize ≠ 0 then
      let (liRet, s) := s.eventDoWrite true kernel
      if liRet = minaAgain then { s with epollout := true } else s
    else s

-- ---------------------------------------------------------------------------
-- Runs of a session
-- ---------------------------------------------------------------------------

/-- A message: a block in order, or none. -/
abbrev Message := Option {message : CMemblock // message.Layout}

/-- The bytes of a message. -/
def Message.bytes : Message → List UInt8
  | none => []
  | some message => message.val.unread

inductive Event where
  | filterWrite (heap : Heap) (message : Message) (kernel : Kernel)
  /-- The poller finds the socket writable. -/
  | poll (abPost : Bool) (kernel : Kernel)

/-- The next state, and whether the call came back. A call that throws has changed
nothing. -/
def step (s : Session) : Event → Session × Bool
  | .filterWrite heap message kernel =>
    match s.filterWrite heap (message.map Subtype.val) kernel with
    | none => (s, false)
    | some s => (s, true)
  | .poll abPost kernel => ((s.eventDoWrite abPost kernel).2, true)

/-- A session whose write block is as `Init` leaves it. -/
def init (memory : List UInt8) : Session := ⟨.init memory, [], true, false, false⟩

def machine (memory : List UInt8) : Machine Session Event Bool := ⟨init memory, step⟩

/-- All bytes written to the session, in order. -/
def stream : List (Step Session Event Bool) → List UInt8
  | [] => []
  | st :: tr =>
    match st.input, st.output with
    | .filterWrite _ message _, true => stream tr ++ Message.bytes message
    | _, _ => stream tr

/-- The write block is in order, and what was sent and what it holds make up `bytes`. -/
structure Holds (s : Session) (bytes : List UInt8) : Prop where
  layout : s.block.Layout
  bytes_eq : s.sent ++ s.block.unread = bytes

variable {s s' : Session} {bytes : List UInt8}

/-- What `Send` returns says how many bytes were accepted. -/
theorem send_accepted (s : Session) (auSize : Nat) (kernel : Kernel) :
    (∃ n : Nat, (s.send auSize kernel).1 = n ∧ n ≤ auSize ∧ n ≤ maxTransfer ∧
      (s.send auSize kernel).2.2.sent = s.sent ++ s.block.getRead.take n ∧
      (s.send auSize kernel).2.2.block = s.block) ∨
    (((s.send auSize kernel).1 = minaAgain ∨ (s.send auSize kernel).1 = minaError) ∧
      (s.send auSize kernel).2.2.sent = s.sent ∧ (s.send auSize kernel).2.2.block = s.block) := by
  obtain ⟨errno, interrupted, answer⟩ := kernel
  unfold send
  dsimp only
  induction interrupted generalizing errno s with
  | zero =>
    cases answer with
    | room n =>
      refine .inl ⟨min (n + 1) (min auSize maxTransfer), rfl, ?_, ?_, rfl, rfl⟩
      · omega
      · omega
    | zero => exact .inl ⟨0, rfl, Nat.zero_le _, Nat.zero_le _, by simp [sendLoop], rfl⟩
    | again => exact .inr ⟨.inl rfl, rfl, rfl⟩
    | failed => exact .inr ⟨.inr rfl, rfl, rfl⟩
  | succ interrupted ih => exact ih { s with ready := false } .eintr

/-- A negative result, as a `size_t`, is more than any block holds. -/
theorem setRead_negative {data : CMemblock} (h : data.Layout) {r : Int}
    (hr : r = minaAgain ∨ r = minaError) :
    data.setRead (r.bmod (2 ^ 32) % 2 ^ 64).toNat = (none, data) := by
  have hsize := h.size_le
  have hcap := h.capacity_le
  rcases hr with rfl | rfl
  · have hlarge : (minaAgain.bmod (2 ^ 32) % 2 ^ 64).toNat = 2 ^ 64 - 2 := by decide
    rw [hlarge, CMemblock.setRead, if_pos (.inr (by omega))]
  · have hlarge : (minaError.bmod (2 ^ 32) % 2 ^ 64).toNat = 2 ^ 64 - 1 := by decide
    rw [hlarge, CMemblock.setRead, if_pos (.inr (by omega))]

theorem toNat_bmod {n : Nat} (h : n ≤ maxTransfer) :
    ((n : Int).bmod (2 ^ 32) % 2 ^ 64).toNat = n := by
  unfold maxTransfer at h
  have hmod : (n : Int).bmod (2 ^ 32) = n := Int.bmod_eq_of_le (by omega) (by omega)
  rw [hmod]
  omega

theorem Holds.setRead (h : Holds s bytes) {n : Nat} (hn : n ≤ s.block.muSize)
    (hne : s.block.muSize ≠ 0) :
    (s.block.setRead n).2.Layout ∧
      s.sent ++ s.block.getRead.take n ++ (s.block.setRead n).2.unread = bytes := by
  obtain ⟨hlayout, hread⟩ := h.layout.setRead n
  have hlen := h.layout.length_unread
  have hsome : (s.block.setRead n).1 = some n := by
    rw [CMemblock.setRead, if_neg (by omega)]
  rw [hsome] at hread
  have htake : s.block.getRead.take n = s.block.unread.take n := by
    rw [CMemblock.unread, List.take_take, Nat.min_eq_left hn]
  refine ⟨hlayout, ?_⟩
  rw [hread.2.2, htake, List.append_assoc, List.take_append_drop]
  exact h.bytes_eq

theorem holds_conclude {block : CMemblock} (hlayout : block.Layout)
    (hbytes : s.sent ++ block.unread = bytes) (abPost : Bool) (errno : Errno) :
    Holds (s.conclude abPost errno block).2 bytes := by
  unfold conclude
  split
  · split
    · exact ⟨hlayout, hbytes⟩
    · exact ⟨hlayout, hbytes⟩
  · rename_i hzero
    have hnil : block.unread = [] :=
      List.length_eq_zero_iff.mp (hlayout.length_unread.trans (not_not.mp hzero))
    refine ⟨hlayout.reset.1, ?_⟩
    rw [hlayout.reset.2, ← hnil]
    exact hbytes

/-- Handing the block to `send` loses nothing and repeats nothing. -/
theorem Holds.eventDoWrite (h : Holds s bytes) (abPost : Bool) (kernel : Kernel) :
    Holds (s.eventDoWrite abPost kernel).2 bytes := by
  unfold Session.eventDoWrite
  split
  · exact ⟨h.layout, h.bytes_eq⟩
  rename_i hne
  dsimp only
  rcases s.send_accepted s.block.getSize kernel with
    ⟨n, hret, hn, hmax, hsent, hblock⟩ | ⟨hret, hsent, hblock⟩
  · obtain ⟨hlayout, hbytes⟩ := h.setRead hn hne
    rw [hret, toNat_bmod hmax, hblock]
    rw [← hsent] at hbytes
    exact holds_conclude hlayout hbytes abPost _
  · have hbytes := h.bytes_eq
    rw [← hsent] at hbytes
    rw [hblock, setRead_negative h.layout hret]
    exact holds_conclude h.layout hbytes abPost _

/-- The write block, once it has room, takes the message as it is. -/
theorem Holds.take (h : Holds s bytes) {heap : Heap} {message : CMemblock}
    (hmessage : message.Layout) (htake : s.take heap message = some s') :
    Holds s' (bytes ++ message.unread) := by
  obtain ⟨block, hbind, rfl⟩ := Option.map_eq_some_iff.mp htake
  obtain ⟨grown, hgrown, hwrite⟩ := Option.bind_eq_some_iff.mp hbind
  have hlen : (message.getRead.take message.getSize).length = message.getSize :=
    hmessage.length_unread
  have hlayout := h.layout
  have hsize := hlayout.size_le
  have hcap := hlayout.capacity_le
  have hroom : grown.Layout ∧ grown.unread = s.block.unread ∧
      grown.muSize + message.getSize ≤ grown.muCapacity := by
    split at hgrown
    · obtain ⟨hgl, hgu, hgc, hgs⟩ := hlayout.resize hgrown
      have htotal : s.block.getSize + message.getSize ≤
          if s.block.getSize + message.getSize < s.block.getCapacity * 2 % 2 ^ 64 then
            s.block.getCapacity * 2 % 2 ^ 64
          else s.block.getSize + message.getSize := by
        split <;> omega
      exact ⟨hgl, hgu, hgs ▸ htotal.trans hgc⟩
    · rename_i hspace
      have hfit : s.block.muSize + message.getSize ≤ s.block.muCapacity := by
        simp only [CMemblock.getSpace] at hspace
        omega
      split at hgrown
      · cases hgrown
        exact ⟨hlayout.shrink.1, hlayout.shrink.2, hfit⟩
      · cases hgrown
        exact ⟨hlayout, rfl, hfit⟩
  obtain ⟨hgl, hgu, hfit⟩ := hroom
  obtain ⟨hbl, hbu⟩ := hgl.write (by omega) hwrite
  refine ⟨hbl, ?_⟩
  rw [hbu, hgu, ← List.append_assoc, h.bytes_eq]
  rfl

theorem Holds.filterWrite (h : Holds s bytes) {heap : Heap} {message : Message} {kernel : Kernel}
    (hwrite : s.filterWrite heap (message.map Subtype.val) kernel = some s') :
    Holds s' (bytes ++ Message.bytes message) := by
  obtain ⟨taken, htaken, rfl⟩ := Option.map_eq_some_iff.mp hwrite
  have hholds : Holds taken (bytes ++ Message.bytes message) := by
    cases message with
    | none =>
      cases htaken
      simpa [Message.bytes] using h
    | some message =>
      simp only [Option.map_some] at htaken
      split at htaken
      · exact h.take message.property htaken
      · rename_i hempty
        cases htaken
        have hnil : message.val.unread = [] :=
          List.length_eq_zero_iff.mp (message.property.length_unread.trans (not_not.mp hempty))
        simpa [Message.bytes, hnil] using h
  split
  · have hdone := hholds.eventDoWrite true kernel
    dsimp only
    split
    · exact ⟨hdone.layout, hdone.bytes_eq⟩
    · exact hdone
  · exact hholds

/-- Every run keeps the stream: what is sent and what is left is what was written. -/
theorem holds_run {memory : List UInt8} (hpos : 0 < memory.length) (hle : memory.length ≤ 2 ^ 57)
    (events : List Event) :
    Holds ((machine memory).run events) (stream ((machine memory).trace events)) := by
  refine (machine memory).invariant (C := fun _ => True) (P := fun tr s => Holds s (stream tr))
    (fun _ _ _ => trivial) ⟨CMemblock.layout_init hpos hle, ?_⟩ ?_ events trivial
  · simp [machine, init, CMemblock.init, CMemblock.unread, stream]
  intro events event _ h
  cases event with
  | filterWrite heap message kernel =>
    cases hwrite : ((machine memory).run events).filterWrite heap (message.map Subtype.val)
        kernel with
    | none =>
      simp only [machine, stream, Machine.stepAfter, step] at hwrite h ⊢
      rw [hwrite]
      exact h
    | some s' =>
      have h' := h.filterWrite hwrite
      simp only [machine, stream, Machine.stepAfter, step] at hwrite h' ⊢
      rw [hwrite]
      exact h'
  | poll abPost kernel => exact h.eventDoWrite abPost kernel

/-- At every point of every run the bytes `send` has accepted are the first bytes of
the messages in order, and the write block holds the others. -/
theorem sent_prefix_stream (memory : List UInt8) (hpos : 0 < memory.length)
    (hle : memory.length ≤ 2 ^ 57) (events : List Event) :
    ((machine memory).run events).sent <+: stream ((machine memory).trace events) ∧
    stream ((machine memory).trace events) =
      ((machine memory).run events).sent ++ ((machine memory).run events).block.unread :=
  have h := (holds_run hpos hle events).bytes_eq
  ⟨⟨_, h⟩, h.symm⟩

/-- A message of three bytes. -/
def three : CMemblock := ⟨[1, 2, 3], 3, 0, 3, 3, 3⟩

theorem layout_three : three.Layout := ⟨rfl, by decide, by decide, by decide, by decide, rfl, rfl⟩

/-- A block of four bytes takes a message of three twice, growing; `send` accepts two
bytes and then one, and is interrupted in between. -/
def twice : List Event :=
  [.filterWrite CMemblock.zeroHeap (some ⟨three, layout_three⟩) ⟨.eagain, 1, .room 0⟩,
    .filterWrite CMemblock.zeroHeap (some ⟨three, layout_three⟩) ⟨.eagain, 0, .room 1⟩]

theorem sent_prefix_twice :
    ((machine (List.replicate 4 0)).run twice).closed = false ∧
    stream ((machine (List.replicate 4 0)).trace twice) = [1, 2, 3] ++ [1, 2, 3] ∧
    ((machine (List.replicate 4 0)).run twice).sent <+:
      stream ((machine (List.replicate 4 0)).trace twice) ∧
    ((machine (List.replicate 4 0)).run twice).block.unread = [1, 2, 3] := by
  have h := sent_prefix_stream (List.replicate 4 0) (by decide) (by decide) twice
  exact ⟨by decide, by decide, h.1, by decide⟩

end Session

end Netfram
