-- SUMMARY: The write side of a UDP session: one write block and one destination for all datagrams.
import NetworkEtc.Netfram.SessionWrite
import NetworkEtc.Netfram.SockAddr

/-!
# Writing to a UDP session

To send a message, the destination is set and the message is copied to the session's write
block, which is handed to `sendto` as one datagram, at once and again whenever the poller
finds the socket writable. A datagram is accepted as a whole or not at all.
-/

namespace Netfram

open Library

structure Datagram where
  data : List UInt8
  dest : SockAddr
  deriving DecidableEq

/-- No datagram is larger. -/
def maxDatagram : Nat := 65507

/-- A UDP session: what it shares with any other, and `moDest`. -/
structure UDPSession where
  session : Session
  dest : SockAddr

namespace UDPSession

/-- `COsAction::SendUDP`: what it returns, what it leaves in `errno`, and the datagram it
has handed over. `accepted` is the answer of `sendto`, success or `EAGAIN`; a session that
was closed has no socket, and the call fails. -/
def sendUDP (s : UDPSession) (auSize : Nat) (errno : Errno) (accepted : Bool) :
    Int × Errno × UDPSession × Datagram :=
  let datagram := ⟨s.session.block.getRead.take auSize, s.dest⟩
  if s.session.closed then (minaError, .other, s, datagram)
  else if accepted ∧ auSize ≤ maxDatagram then (auSize, errno, s, datagram)
  else (minaAgain, .eagain, { s with session := { s.session with ready := false } }, datagram)

/-- `CEventDo::Write`, with the datagrams it has handed to `sendto`. -/
def eventDoWrite (s : UDPSession) (abPost : Bool) (errno : Errno) (accepted : Bool) :
    Int × UDPSession × List Datagram :=
  if s.session.block.getSize = 0 then
    (minaOk, { s with session := { s.session with epollout := s.session.epollout && !abPost } }, [])
  else
    let (liSize, errno, s, datagram) := s.sendUDP s.session.block.getSize errno accepted
    let liWriteSize := liSize.bmod (2 ^ 32)
    let (skipped, block) := s.session.block.setRead (liWriteSize % 2 ^ 64).toNat
    let (liRet, session) :=
      s.session.conclude abPost (if skipped = none then .enodata else errno) block
    (liRet, { s with session }, [datagram])

/-- `CFilterTail::FilterWrite` of a message that is in another block than the session's
own. -/
def filterWrite (s : UDPSession) (heap : Heap) (message : Option CMemblock) (errno : Errno)
    (accepted : Bool) : Option (UDPSession × List Datagram) :=
  let copied : Option Session :=
    match message with
    | none => some s.session
    | some message => if message.getSize ≠ 0 then s.session.take heap message else some s.session
  copied.map fun session =>
    let s := { s with session }
    if s.session.block.getSize ≠ 0 then
      let (liRet, s, datagrams) := s.eventDoWrite true errno accepted
      if liRet = minaAgain then
        ({ s with session := { s.session with epollout := true } }, datagrams)
      else (s, datagrams)
    else (s, [])

-- ---------------------------------------------------------------------------
-- Runs of a session
-- ---------------------------------------------------------------------------

inductive Event where
  /-- The destination is set, and a message written. -/
  | send (dest : SockAddr) (heap : Heap) (message : Session.Message) (errno : Errno)
      (accepted : Bool)
  /-- The poller finds the socket writable. -/
  | poll (abPost : Bool) (errno : Errno) (accepted : Bool)

/-- The next state, and the datagrams handed to `sendto`; `none` where the call throws. -/
def step (s : UDPSession) : Event → UDPSession × Option (List Datagram)
  | .send dest heap message errno accepted =>
    let s := { s with dest }
    match s.filterWrite heap (message.map Subtype.val) errno accepted with
    | none => (s, none)
    | some (s, datagrams) => (s, some datagrams)
  | .poll abPost errno accepted =>
    let (_, s, datagrams) := s.eventDoWrite abPost errno accepted
    (s, some datagrams)

/-- A session whose write block is as `Init` leaves it. -/
def machine (memory : List UInt8) (dest : SockAddr) :
    Machine UDPSession Event (Option (List Datagram)) :=
  ⟨⟨.init memory, dest⟩, step⟩

/-- The messages written, each with the destination set for it. -/
def written : List (Step UDPSession Event (Option (List Datagram))) → List Datagram
  | [] => []
  | st :: tr =>
    match st.input, st.output with
    | .send dest _ message _ _, some _ => ⟨Session.Message.bytes message, dest⟩ :: written tr
    | _, _ => written tr

/-- The datagrams handed to `sendto`. -/
def handed : List (Step UDPSession Event (Option (List Datagram))) → List Datagram
  | [] => []
  | st :: tr => st.output.getD [] ++ handed tr

/-- No message is written while the write block still holds an earlier one. -/
def WrittenAlone (st : Step UDPSession Event (Option (List Datagram))) : Prop :=
  match st.input with
  | .send .. => st.pre.session.block.muSize = 0
  | .poll .. => True

/-- The write block is in order, and holds nothing or a message written, whose destination
is still set. -/
structure Holds (s : UDPSession) (datagrams : List Datagram) : Prop where
  layout : s.session.block.Layout
  whole : s.session.block.unread = [] ∨ ⟨s.session.block.unread, s.dest⟩ ∈ datagrams

variable {s s' : UDPSession} {datagrams out : List Datagram} {abPost accepted : Bool}
  {errno : Errno} {liRet : Int}

variable (abPost) (errno) in
/-- The end of `CEventDo::Write` keeps the block, or empties one of which nothing is left. -/
theorem conclude_block (session : Session) {block : CMemblock} (h : block.Layout) :
    (session.conclude abPost errno block).2.block.Layout ∧
      (session.conclude abPost errno block).2.block.unread = block.unread := by
  unfold Session.conclude
  split
  · split
    · exact ⟨h, rfl⟩
    · exact ⟨h, rfl⟩
  · next hzero =>
    have hnil : block.unread = [] :=
      List.length_eq_zero_iff.mp (h.length_unread.trans (not_not.mp hzero))
    exact ⟨h.reset.1, h.reset.2.trans hnil.symm⟩

variable (errno) (accepted) in
/-- What `sendto` answers: the whole block, or an error that `SetRead` refuses. -/
theorem sendUDP_spec :
    ∃ liSize errno' s', s.sendUDP s.session.block.getSize errno accepted =
        (liSize, errno', s', ⟨s.session.block.unread, s.dest⟩) ∧
      s'.session.block = s.session.block ∧ s'.dest = s.dest ∧
      (liSize = minaAgain ∨ liSize = minaError ∨
        (liSize = s.session.block.muSize ∧ s.session.block.muSize ≤ maxDatagram)) := by
  unfold sendUDP
  simp only
  split
  · exact ⟨_, _, _, rfl, rfl, rfl, Or.inr (Or.inl rfl)⟩
  · split
    · next haccepted => exact ⟨_, _, _, rfl, rfl, rfl, Or.inr (Or.inr ⟨rfl, haccepted.2⟩)⟩
    · exact ⟨_, _, _, rfl, rfl, rfl, Or.inl rfl⟩

/-- `CEventDo::Write` hands over what the block holds, all of it, and keeps it or drops it. -/
theorem eventDoWrite_spec (h : s.session.block.Layout)
    (hwrite : s.eventDoWrite abPost errno accepted = (liRet, s', out)) :
    s'.session.block.Layout ∧ s'.dest = s.dest ∧
      (s'.session.block.unread = [] ∨ s'.session.block.unread = s.session.block.unread) ∧
      ∀ d ∈ out, s.session.block.unread ≠ [] ∧ d = ⟨s.session.block.unread, s.dest⟩ := by
  unfold eventDoWrite at hwrite
  split at hwrite
  · cases hwrite
    exact ⟨h, rfl, Or.inr rfl, by simp⟩
  next hne =>
  obtain ⟨liSize, errno', s₁, hsend, hblock, hdest, hcases⟩ :=
    sendUDP_spec (s := s) accepted errno
  simp only [hsend, hblock] at hwrite
  cases hwrite
  have hpos : s.session.block.unread ≠ [] := fun hnil =>
    hne (h.length_unread.symm.trans (List.length_eq_zero_iff.mpr hnil))
  have hout : ∀ d ∈ [(⟨s.session.block.unread, s.dest⟩ : Datagram)],
      s.session.block.unread ≠ [] ∧ d = ⟨s.session.block.unread, s.dest⟩ := by
    intro d hd
    exact ⟨hpos, List.mem_singleton.mp hd⟩
  rcases or_assoc.mpr hcases with herror | ⟨rfl, hmax⟩
  · rw [Session.setRead_negative h herror]
    obtain ⟨hlayout, hunread⟩ := conclude_block abPost .enodata s₁.session h
    exact ⟨hlayout, hdest, Or.inr hunread, hout⟩
  · rw [Session.toNat_bmod (hmax.trans (by decide))]
    obtain ⟨hread, hskip⟩ := h.setRead s.session.block.muSize
    have hsome : (s.session.block.setRead s.session.block.muSize).1 =
        some s.session.block.muSize := by
      unfold CMemblock.setRead
      rw [if_neg]
      rintro (hzero | hlt)
      · exact hne hzero
      · exact lt_irrefl _ hlt
    rw [hsome] at hskip
    have hnil : (s.session.block.setRead s.session.block.muSize).2.unread = [] := by
      rw [hskip.2.2, ← h.length_unread, List.drop_length]
    obtain ⟨hlayout, hunread⟩ := conclude_block abPost _ s₁.session hread
    exact ⟨hlayout, hdest, Or.inl (hunread.trans hnil), hout⟩

/-- A message that finds the write block empty is alone in it. -/
theorem take_spec {session session' : Session} {heap : Heap} {message : Session.Message}
    (h : session.block.Layout) (hempty : session.block.muSize = 0)
    (htake : (match message.map Subtype.val with
      | none => some session
      | some message => if message.getSize ≠ 0 then session.take heap message else some session) =
        some session') :
    session'.block.Layout ∧ session'.block.unread = Session.Message.bytes message := by
  have hnil : session.block.unread = [] :=
    List.length_eq_zero_iff.mp (h.length_unread.trans hempty)
  cases message with
  | none =>
    cases htake
    exact ⟨h, hnil⟩
  | some message =>
    simp only [Option.map_some] at htake
    split at htake
    · have hholds : session.Holds (session.sent ++ session.block.unread) := ⟨h, rfl⟩
      obtain ⟨hlayout, hbytes⟩ := hholds.take message.property htake
      have hsent : session'.sent = session.sent := by
        obtain ⟨block, -, rfl⟩ := Option.map_eq_some_iff.mp htake
        rfl
      rw [hsent, hnil, List.append_nil] at hbytes
      exact ⟨hlayout, List.append_cancel_left hbytes⟩
    · next hzero =>
      cases htake
      have hnil' : message.val.unread = [] :=
        List.length_eq_zero_iff.mp (message.property.length_unread.trans (not_not.mp hzero))
      exact ⟨h, hnil.trans hnil'.symm⟩

/-- A message that finds the write block empty is handed over by itself. -/
theorem filterWrite_spec {heap : Heap} {message : Session.Message}
    (h : s.session.block.Layout) (hempty : s.session.block.muSize = 0)
    (hwrite : s.filterWrite heap (message.map Subtype.val) errno accepted = some (s', out)) :
    s'.session.block.Layout ∧ s'.dest = s.dest ∧
      (s'.session.block.unread = [] ∨
        s'.session.block.unread = Session.Message.bytes message) ∧
      ∀ d ∈ out, d = ⟨Session.Message.bytes message, s.dest⟩ := by
  obtain ⟨session, hcopied, hrest⟩ := Option.map_eq_some_iff.mp hwrite
  obtain ⟨hlayout, hbytes⟩ := take_spec h hempty hcopied
  simp only at hrest
  split at hrest
  · cases hdone : eventDoWrite { s with session := session } true errno accepted with
    | mk liRet rest =>
      obtain ⟨s₁, datagrams⟩ := rest
      obtain ⟨hlayout', hdest, hunread, hout⟩ :=
        eventDoWrite_spec (s := { s with session := session }) hlayout hdone
      simp only [hbytes] at hunread hout
      simp only [hdone] at hrest
      split at hrest
      · cases hrest
        exact ⟨hlayout', hdest, hunread, fun d hd => (hout d hd).2⟩
      · cases hrest
        exact ⟨hlayout', hdest, hunread, fun d hd => (hout d hd).2⟩
  · cases hrest
    exact ⟨hlayout, rfl, Or.inr hbytes, by simp⟩

/-- What one step does where messages are written alone. -/
theorem Holds.step {tr : List (Step UDPSession Event (Option (List Datagram)))}
    (h : s.Holds (written tr)) {event : Event}
    (halone : WrittenAlone ⟨s, event, (s.step event).2, (s.step event).1⟩) :
    (s.step event).1.Holds
        (written (⟨s, event, (s.step event).2, (s.step event).1⟩ :: tr)) ∧
      ∀ d ∈ (s.step event).2.getD [],
        d ∈ written (⟨s, event, (s.step event).2, (s.step event).1⟩ :: tr) := by
  cases event with
  | send dest heap message errno accepted =>
    have hempty : s.session.block.muSize = 0 := halone
    cases hwrite : filterWrite { s with dest := dest } heap (message.map Subtype.val) errno
        accepted with
    | none =>
      simp only [UDPSession.step, hwrite, written]
      refine ⟨⟨h.layout, Or.inl ?_⟩, by simp⟩
      exact List.length_eq_zero_iff.mp (h.layout.length_unread.trans hempty)
    | some result =>
      obtain ⟨s', out⟩ := result
      obtain ⟨hlayout, hdest, hunread, hout⟩ :=
        filterWrite_spec (s := { s with dest := dest }) h.layout hempty hwrite
      simp only [UDPSession.step, hwrite, written, Option.getD_some]
      refine ⟨⟨hlayout, hunread.imp_right fun heq => ?_⟩, fun d hd => ?_⟩
      · rw [heq, hdest]
        exact List.mem_cons_self
      · rw [hout d hd]
        exact List.mem_cons_self
  | poll abPost errno accepted =>
    cases hdone : s.eventDoWrite abPost errno accepted with
    | mk liRet rest =>
      obtain ⟨s', out⟩ := rest
      obtain ⟨hlayout, hdest, hunread, hout⟩ := eventDoWrite_spec h.layout hdone
      simp only [UDPSession.step, hdone, written, Option.getD_some]
      refine ⟨⟨hlayout, ?_⟩, fun d hd => ?_⟩
      · rcases hunread with hnil | heq
        · exact Or.inl hnil
        · rw [heq, hdest]
          exact h.whole
      · obtain ⟨hne, rfl⟩ := hout d hd
        exact h.whole.resolve_left hne

/-- What is written stays written. -/
theorem written_subset (st : Step UDPSession Event (Option (List Datagram)))
    (tr : List (Step UDPSession Event (Option (List Datagram)))) :
    ∀ d ∈ written tr, d ∈ written (st :: tr) := by
  intro d hd
  unfold written
  split
  · exact List.mem_cons_of_mem _ hd
  · exact hd

/-- In every run in which no message is written while the write block still holds an
earlier one, every datagram handed to `sendto` is a message written, and goes to the
destination set for it. -/
theorem handed_of_writtenAlone (memory : List UInt8) (hpos : 0 < memory.length)
    (hle : memory.length ≤ 2 ^ 57) (dest : SockAddr) (events : List Event)
    (halone : ∀ st ∈ (machine memory dest).trace events, WrittenAlone st) :
    ∀ d ∈ handed ((machine memory dest).trace events),
      d ∈ written ((machine memory dest).trace events) := by
  have hrun := (machine memory dest).invariant
    (C := fun tr => ∀ st ∈ tr, WrittenAlone st)
    (P := fun tr s => s.Holds (written tr) ∧ ∀ d ∈ handed tr, d ∈ written tr)
    (fun _ _ h st' hst' => h st' (List.mem_cons_of_mem _ hst'))
    ⟨⟨CMemblock.layout_init hpos hle, Or.inl ?_⟩, by simp [handed]⟩ ?_ events halone
  · exact hrun.2
  · simp [machine, Session.init, CMemblock.init, CMemblock.unread]
  · rintro events event hC ⟨hholds, hhanded⟩
    obtain ⟨hstep, hout⟩ := hholds.step (hC _ List.mem_cons_self)
    refine ⟨hstep, fun d hd => ?_⟩
    rcases List.mem_append.mp hd with hd | hd
    · exact hout d hd
    · exact written_subset _ _ d (hhanded d hd)

/-- Two addresses. -/
def nodeA : SockAddr := ⟨0x7f000001, 8888⟩
def nodeB : SockAddr := ⟨0x7f000002, 8888⟩

/-- A message of three bytes is sent to one node, which `sendto` puts off, and then to
another. -/
def putOff : List Event :=
  [.send nodeB CMemblock.zeroHeap (some ⟨Session.three, Session.layout_three⟩) .other true,
    .send nodeA CMemblock.zeroHeap (some ⟨Session.three, Session.layout_three⟩) .other false]

/-- What goes to the second node is the message twice. -/
theorem handed_twice :
    written ((machine (List.replicate 8 0) nodeA).trace putOff) =
        [⟨[1, 2, 3], nodeB⟩, ⟨[1, 2, 3], nodeA⟩] ∧
      handed ((machine (List.replicate 8 0) nodeA).trace putOff) =
        [⟨[1, 2, 3, 1, 2, 3], nodeB⟩, ⟨[1, 2, 3], nodeA⟩] ∧
      ¬ ∀ d ∈ handed ((machine (List.replicate 8 0) nodeA).trace putOff),
        d ∈ written ((machine (List.replicate 8 0) nodeA).trace putOff) := by decide

/-- The message is sent to both nodes, and the poller comes in between. -/
def bothSent : List Event :=
  [.send nodeB CMemblock.zeroHeap (some ⟨Session.three, Session.layout_three⟩) .other true,
    .poll true .other true,
    .send nodeA CMemblock.zeroHeap (some ⟨Session.three, Session.layout_three⟩) .other true]

theorem handed_bothSent :
    (handed ((machine (List.replicate 8 0) nodeA).trace bothSent)).length = 2 ∧
      ∀ d ∈ handed ((machine (List.replicate 8 0) nodeA).trace bothSent),
        d ∈ written ((machine (List.replicate 8 0) nodeA).trace bothSent) := by
  refine ⟨by decide, ?_⟩
  apply handed_of_writtenAlone _ (by decide) (by decide)
  intro st hst
  simp only [bothSent, Machine.trace_cons, Machine.trace_nil, List.mem_cons, List.not_mem_nil,
    or_false] at hst
  rcases hst with rfl | rfl | rfl
  · change CMemblock.muSize _ = 0
    decide
  · trivial
  · rfl

end UDPSession

end Netfram
