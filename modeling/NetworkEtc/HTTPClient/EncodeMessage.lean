-- SUMMARY: The encoder of a request: its start line, its header and its body, into a memory block.
import NetworkEtc.HTTPClient.HttpMessage

/-!
# `EncodeMessage`

A message is all or nothing for the reader of the block, unless the block has room in front of its
read pointer or has to grow: the encoders take all of its space for space behind the write pointer,
and the start of the message is a pointer that `Write` may leave behind.
-/

namespace Netfram.CMemblock

open Library Library.Printf

/-! # Behind the write pointer -/

/-- Nothing is written beyond the end of the memory. -/
def InMemory (data : CMemblock) : Prop := data.mpcBase.length = data.muCapacity

instance (data : CMemblock) : Decidable data.InMemory := inferInstanceAs (Decidable (_ = _))

/-- What `data` is when `bytes` are written behind its write pointer, and perhaps more behind
these. -/
structure Extends (data : CMemblock) (bytes : List UInt8) (data' : CMemblock) : Prop where
  layout : data'.Layout
  mpcReadPt : data'.mpcReadPt = data.mpcReadPt
  muCapacity : data'.muCapacity = data.muCapacity
  mpcWritePt : data'.mpcWritePt = data.mpcWritePt + bytes.length
  before : data'.mpcBase.take data'.mpcWritePt = data.mpcBase.take data.mpcWritePt ++ bytes

section

variable {data data' data'' : CMemblock} {bytes bytes' memory : List UInt8}

theorem Layout.write_le_length (h : data.Layout) : data.mpcWritePt ≤ data.mpcBase.length := by
  rw [h.memory, ← h.end_eq]
  exact h.write_le

/-- Room in front of the read pointer is space, too. -/
theorem Layout.getSpace_eq (h : data.Layout) :
    data.getSpace = data.getDirectSpace + data.mpcReadPt := by
  have hread := h.read_le
  have hwrite := h.write_le
  have hend := h.end_eq
  have hsize := h.size_eq
  unfold CMemblock.getSpace CMemblock.getDirectSpace
  omega

/-- The unread bytes are those between the pointers. -/
theorem Layout.unread_eq (h : data.Layout) :
    data.unread = (data.mpcBase.take data.mpcWritePt).drop data.mpcReadPt := by
  rw [List.drop_take, unread, getRead, h.size_eq]

theorem Extends.unread (h : data.Layout) (hext : data.Extends bytes data') :
    data'.unread = data.unread ++ bytes := by
  have hread := h.read_le
  have hlength := h.write_le_length
  rw [hext.layout.unread_eq, hext.before, hext.mpcReadPt, h.unread_eq,
    List.drop_append_of_le_length (by rw [List.length_take]; omega)]

theorem Extends.size (h : data.Layout) (hext : data.Extends bytes data') :
    data'.muSize = data.muSize + bytes.length := by
  rw [← hext.layout.length_unread, ← h.length_unread, hext.unread h, List.length_append]

theorem Extends.getDirectSpace (h : data.Layout) (hext : data.Extends bytes data') :
    data'.getDirectSpace = data.getDirectSpace - bytes.length := by
  rw [CMemblock.getDirectSpace, CMemblock.getDirectSpace, hext.layout.end_eq, hext.muCapacity,
    h.end_eq, hext.mpcWritePt, Nat.sub_add_eq]

theorem Extends.getSpace (h : data.Layout) (hext : data.Extends bytes data') :
    data'.getSpace = data.getSpace - bytes.length := by
  rw [CMemblock.getSpace, CMemblock.getSpace, hext.muCapacity, hext.size h, Nat.sub_add_eq]

theorem Extends.trans (hext : data.Extends bytes data') (hext' : data'.Extends bytes' data'') :
    data.Extends (bytes ++ bytes') data'' where
  layout := hext'.layout
  mpcReadPt := hext'.mpcReadPt.trans hext.mpcReadPt
  muCapacity := hext'.muCapacity.trans hext.muCapacity
  mpcWritePt := by
    rw [hext'.mpcWritePt, hext.mpcWritePt, List.length_append, Nat.add_assoc]
  before := by
    rw [hext'.before, hext.before, List.append_assoc]

/-- Other bytes behind the write pointer. -/
theorem Layout.scribble (h : data.Layout) (hlength : memory.length = data.muCapacity)
    (hbefore : memory.take data.mpcWritePt = data.mpcBase.take data.mpcWritePt) :
    data.Extends [] { data with mpcBase := memory } where
  layout := ⟨hlength, h.capacity_pos, h.capacity_le, h.read_le, h.write_le, h.end_eq, h.size_eq⟩
  mpcReadPt := rfl
  muCapacity := rfl
  mpcWritePt := rfl
  before := by rw [List.append_nil, ← hbefore]

theorem inMemory_setWriteTo {apcWrite : Nat} :
    (data.setWriteTo apcWrite).InMemory ↔ data.InMemory := by
  unfold setWriteTo
  split
  · exact Iff.rfl
  · exact Iff.rfl

/-- `SetWrite` behind bytes that have been written. -/
theorem Layout.extends_setWriteTo (h : data.Layout) (hlength : memory.length = data.muCapacity)
    (hroom : data.mpcWritePt + bytes.length ≤ data.mpcEnd)
    (hbefore : memory.take (data.mpcWritePt + bytes.length) =
      data.mpcBase.take data.mpcWritePt ++ bytes) :
    data.Extends bytes
      ({ data with mpcBase := memory }.setWriteTo (data.mpcWritePt + bytes.length)) := by
  have hread := h.read_le
  have hset : ({ data with mpcBase := memory } : CMemblock).setWriteTo
      (data.mpcWritePt + bytes.length) =
        { data with
          mpcBase := memory
          mpcWritePt := data.mpcWritePt + bytes.length
          muSize := data.mpcWritePt + bytes.length - data.mpcReadPt } :=
    if_neg (by simp only; omega)
  rw [hset]
  exact ⟨⟨hlength, h.capacity_pos, h.capacity_le, by simp only; omega, hroom, h.end_eq, rfl⟩, rfl,
    rfl, rfl, hbefore⟩

/-- `SetWrite` to an address that may be in front of the memory. -/
def setWriteAt (data : CMemblock) (apcWrite : Int) : CMemblock :=
  if apcWrite < 0 then data else data.setWriteTo apcWrite.toNat

theorem setWriteAt_natCast (data : CMemblock) (apcWrite : Nat) :
    data.setWriteAt apcWrite = data.setWriteTo apcWrite :=
  if_neg (by omega)

theorem inMemory_setWriteAt {apcWrite : Int} :
    (data.setWriteAt apcWrite).InMemory ↔ data.InMemory := by
  unfold setWriteAt
  split
  · exact Iff.rfl
  · exact inMemory_setWriteTo

/-- Back to the write pointer of before. -/
theorem Extends.restore (h : data.Layout) (hext : data.Extends bytes data') :
    data.Extends [] (data'.setWriteAt data.mpcWritePt) := by
  have hread := h.read_le
  have hwrite := hext.layout.write_le
  have hmoved := hext.mpcWritePt
  have hreadPt := hext.mpcReadPt
  have hset : data'.setWriteAt data.mpcWritePt =
      { data' with mpcWritePt := data.mpcWritePt, muSize := data.mpcWritePt - data'.mpcReadPt } :=
    (data'.setWriteAt_natCast data.mpcWritePt).trans (if_neg (by omega))
  rw [hset]
  refine ⟨⟨hext.layout.memory, hext.layout.capacity_pos, hext.layout.capacity_le, ?_, ?_,
    hext.layout.end_eq, rfl⟩, hext.mpcReadPt, hext.muCapacity, rfl, ?_⟩
  · rw [hext.mpcReadPt]
    exact hread
  · simp only
    omega
  · have hprefix := congrArg (List.take data.mpcWritePt) hext.before
    have hlength := h.write_le_length
    rw [List.take_take, hmoved, Nat.min_eq_left (Nat.le_add_right ..),
      List.take_append_of_le_length (by rw [List.length_take]; omega), List.take_take,
      Nat.min_self] at hprefix
    rw [List.append_nil, ← hprefix]

/-- Bytes for which there is room. -/
theorem Layout.extends_append (h : data.Layout)
    (hroom : data.mpcWritePt + bytes.length ≤ data.mpcEnd) :
    data.Extends bytes (data.append bytes) where
  layout := (h.append bytes hroom).1
  mpcReadPt := rfl
  muCapacity := rfl
  mpcWritePt := rfl
  before := by
    have hlength := h.write_le_length
    have htake : (data.mpcBase.take data.mpcWritePt ++ bytes).length =
        data.mpcWritePt + bytes.length := by
      rw [List.length_append, List.length_take, Nat.min_eq_left hlength]
    simp only [CMemblock.append, store]
    rw [← htake, List.take_left]

/-- Bytes for which there is room once the unread ones are at the start. -/
theorem Layout.write_compacts (h : data.Layout) (heap : Heap)
    (hspace : data.muSize + bytes.length ≤ data.muCapacity)
    (hroom : data.mpcEnd < data.mpcWritePt + bytes.length) :
    data.write heap bytes = some (data.shrink.append bytes) := by
  have hle := h.capacity_le
  have hend := h.end_eq
  have hwrite := h.write_le
  have hexpand : data.expand heap bytes.length = some data := by
    unfold CMemblock.expand
    rw [subSize_of_le h.size_le (by omega), subSize_of_le (by omega) (by omega)]
    exact if_neg (by omega)
  rw [CMemblock.write, hexpand, Option.map_some, subSize_of_le hwrite (by omega),
    if_pos (by omega), h.compact_eq]

/-- Bytes for which there is no room are written past the end of the memory, or to other memory. -/
theorem Layout.write_full (h : data.Layout) {heap : Heap}
    (hspace : data.muCapacity < data.muSize + bytes.length)
    (hwrite : data.write heap bytes = some data') :
    ¬ data'.InMemory ∨ data'.mpcReadPt = 0 ∧ data.muCapacity < data'.muCapacity := by
  obtain ⟨grown, hexpand, hdata'⟩ := Option.map_eq_some_iff.mp hwrite
  have hgrown : grown = data ∨ grown.mpcReadPt = 0 ∧ data.muCapacity < grown.muCapacity := by
    unfold CMemblock.expand at hexpand
    dsimp only at hexpand
    split at hexpand
    · obtain ⟨auSize, -, hresize⟩ := Option.bind_eq_some_iff.mp hexpand
      unfold CMemblock.resize at hresize
      split at hresize
      · exact Or.inl (Option.some.inj hresize).symm
      · rename_i hlarger
        obtain ⟨lpcAddr, -, rfl⟩ := Option.map_eq_some_iff.mp hresize
        exact Or.inr ⟨rfl, Nat.lt_of_not_le hlarger⟩
    · exact Or.inl (Option.some.inj hexpand).symm
  rcases hgrown with rfl | ⟨hread, hlarger⟩
  · left
    have hmemory := h.memory
    have hsize := h.size_eq
    rw [← hdata']
    split
    · have hshrunk := h.shrink.1
      rw [h.compact_eq]
      have hlength := length_store_max bytes hshrunk.write_le_length
      have hshrink : grown.shrink.mpcBase.length = grown.muCapacity := hshrunk.memory
      have hwritePt : grown.shrink.mpcWritePt = grown.muSize := rfl
      intro hinside
      have hinside' := hlength.symm.trans hinside
      change _ = grown.muCapacity at hinside'
      omega
    · have hlength := length_store_max bytes h.write_le_length
      intro hinside
      have hinside' := hlength.symm.trans hinside
      change _ = grown.muCapacity at hinside'
      omega
  · right
    rw [← hdata']
    split
    · exact ⟨rfl, hlarger⟩
    · exact ⟨hread, hlarger⟩

end

end Netfram.CMemblock

namespace HTTPClient

open Library Library.Printf Netfram

/-- `HTTP_ERROR_INVAL` -/
def errorInval : Int := -90601

/-- An `ssize_t` as an `int`. -/
def toInt (n : Int) : Int := n.bmod (2 ^ 32)

structure CHttpRequest extends CHttpMessage where
  moVersion : List UInt8
  moMethod : List UInt8
  moUri : List UInt8
  deriving DecidableEq

namespace CHttpRequest

/-- `"%s %s HTTP/%s\r\n"` -/
def startLine (msg : CHttpRequest) : List UInt8 :=
  cstr msg.moMethod ++ ascii ' ' :: (cstr msg.moUri ++
    (" HTTP/".toList.map ascii ++ (cstr msg.moVersion ++ [cr, lf])))

/-- `EncodeStartLine`. For a text that is longer than an `int` can say, `snprintf` returns -1. -/
def encodeStartLine (msg : CHttpRequest) (data : CMemblock) : Int × CMemblock :=
  let lpcBuf := data.getWrite
  let liBufSize := data.getSpace
  let r := snprintfLine data.mpcBase lpcBuf liBufSize msg.startLine
  let data := { data with mpcBase := r.1 }
  if 2 ^ 31 ≤ r.2 ∨ liBufSize < r.2 + 1 then (errorOobig, data)
  else (0, data.setWriteTo (lpcBuf + r.2))

/-- The lines that the loop of `EncodeHeader` prints into `room` bytes. The last may not fit. -/
def tried (room : Nat) : FieldList → FieldList
  | [] => []
  | field :: fields =>
    field :: if room ≤ (fieldLine field).length then [] else
      tried (room - (fieldLine field).length) fields

/-- `snprintf` prints each of these lines. It returns an `int`: for a line of 2^31 bytes it returns
-1, and it is open what it has written. -/
def Prints (msg : CHttpRequest) (room : Nat) : Prop :=
  ∀ field ∈ tried room msg.calcContentLength.moFieldList, (fieldLine field).length < 2 ^ 31

instance (msg : CHttpRequest) (room : Nat) : Decidable (msg.Prints room) :=
  inferInstanceAs (Decidable (∀ _ ∈ _, _))

/-- `EncodeBody`: the size that `Write` returns, as an `int`. -/
def encodeBody (msg : CHttpRequest) (heap : Heap) (data : CMemblock) : Option (Int × CMemblock) :=
  (data.write heap msg.moEntity).map fun data => (toInt msg.getBodySize, data)

/-- `EncodeMessage`. Where `Write` takes other memory, that memory is `moved` bytes from the old
one, and a pointer into the old one is an offset from the new one less that distance. A block
without capacity has no memory: its pointers are `NULL`. There is no result if `new` throws, and if
`snprintf` leaves open what it does. -/
def encodeMessage (msg : CHttpRequest) (heap : Heap) (moved : Int) (data : CMemblock) :
    Option (Int × CHttpRequest × CMemblock) :=
  if data.muCapacity = 0 then some (errorInval, msg, data)
  else
    let lpcStart := data.getWrite -- `mpcMBWrite` as well
    let (liRet, data) := msg.encodeStartLine data
    if liRet < 0 then some (liRet, msg, data.setWriteAt lpcStart)
    else if ¬ msg.Prints data.getSpace then none
    else
      let (liRet, header, data) := msg.encodeHeader data
      let msg := { msg with toCHttpMessage := header }
      if liRet < 0 then some (liRet, msg, data.setWriteAt lpcStart)
      else
        (msg.encodeBody heap data).map fun (liRet, written) =>
          let lpcStart := lpcStart - if written.muCapacity = data.muCapacity then 0 else moved
          if liRet < 0 then (liRet, msg, written.setWriteAt lpcStart)
          else (toInt (written.getWrite - lpcStart), msg, written)

/-- Start line, header and body. -/
def encoded (msg : CHttpRequest) : List UInt8 := msg.startLine ++ msg.text ++ msg.moEntity

/-- The start line and the header are written inside the block. -/
def StaysInside (msg : CHttpRequest) (data : CMemblock) : Prop :=
  (msg.encodeStartLine data).2.InMemory ∧
    ((msg.encodeStartLine data).1 = 0 →
      (msg.encodeHeader (msg.encodeStartLine data).2).2.2.InMemory)

/-- The message is encoded behind the unread bytes, or an error is returned and there is nothing
but these; and nothing is written beyond the end of the block. -/
def IsClean (msg : CHttpRequest) (data : CMemblock) (n : Int) (data' : CMemblock) : Prop :=
  data'.InMemory ∧
    ((0 ≤ n ∧ data'.unread = data.unread ++ msg.encoded ∧ n = msg.encoded.length) ∨
      (n < 0 ∧ data'.unread = data.unread ∧ data'.getSize = data.getSize))

/-- So it is whatever `new` gives, and wherever in the memory it gives it. -/
def AllOrNothing (msg : CHttpRequest) (data : CMemblock) : Prop :=
  (data.muCapacity ≠ 0 → msg.StaysInside data) ∧
  ∀ (heap : Heap) (moved : Int), (∀ n ≤ 2 ^ 57, heap.new n ≠ none) →
    (data.muCapacity ≤ moved ∨ moved ≤ -2 ^ 57) →
    ∃ n msg' data', msg.encodeMessage heap moved data = some (n, msg', data') ∧
      msg.IsClean data n data'

/-- When the message is all or nothing. What does not fit in the space of the block has to fail in
front of its end; what does has to fit behind the write pointer, and its size in an `int`. -/
def Suits (msg : CHttpRequest) (data : CMemblock) : Prop :=
  let line := msg.startLine.length
  let header := line + msg.text.length
  let whole := msg.encoded.length
  if data.muCapacity = 0 then True
  else if 2 ^ 31 ≤ line ∨ data.getSpace ≤ line then
    data.mpcReadPt = 0 ∨ line < data.getDirectSpace
  else if ¬ msg.Prints (data.getSpace - line) then False
  else if data.getSpace ≤ header then
    data.mpcReadPt = 0 ∨ header ≤ data.getDirectSpace + 1
  else
    header < data.getDirectSpace ∧
      if toInt msg.getBodySize < 0 then whole ≤ data.getDirectSpace
      else whole < 2 ^ 31 ∧
        (whole ≤ data.getDirectSpace ∨ whole ≤ data.getSpace ∧ 2 ^ 32 ∣ data.mpcReadPt)

instance (msg : CHttpRequest) (data : CMemblock) : Decidable (msg.Suits data) :=
  inferInstanceAs (Decidable (ite _ _ _))

/-! # The encoders -/

section

variable {msg : CHttpRequest} {data data' : CMemblock} {memory : List UInt8}
  {heap : Heap} {lpcCur lpcEnd n : Nat}

theorem length_startLine_pos (msg : CHttpRequest) : 0 < msg.startLine.length := by
  unfold startLine
  rw [List.length_append, List.length_cons]
  omega

/-- What an encoder leaves that has failed: other bytes behind the write pointer, inside the block
if `inside` holds. -/
def Fails (data : CMemblock) (inside : Prop) (data' : CMemblock) : Prop :=
  (data'.InMemory ↔ inside) ∧ (inside → data.Extends [] data')

/-- What an encoder leaves that has written `bytes` and a zero. -/
def Succeeds (data : CMemblock) (bytes : List UInt8) (data' : CMemblock) : Prop :=
  (data'.InMemory → bytes.length < data.getDirectSpace) ∧
    (bytes.length < data.getDirectSpace → data.Extends bytes data')

theorem encodeStartLine_fails (msg : CHttpRequest) (h : data.Layout)
    (hfull : 2 ^ 31 ≤ msg.startLine.length ∨ data.getSpace ≤ msg.startLine.length) :
    ∃ data', msg.encodeStartLine data = (errorOobig, data') ∧
      Fails data (data.mpcReadPt = 0 ∨ msg.startLine.length < data.getDirectSpace) data' := by
  have hspace := h.getSpace_eq
  have hwrite := h.write_le_length
  have hmemory := h.memory
  have hend := h.end_eq
  have hlength := length_snprintfLine msg.startLine data.getSpace hwrite
  have hbefore := take_snprintfLine msg.startLine data.getSpace
    (Nat.le_refl data.mpcWritePt) hwrite
  refine ⟨_, if_pos (hfull.imp_right Nat.lt_succ_of_le), ?_, ?_⟩
  · have hinside : (snprintfLine data.mpcBase data.mpcWritePt data.getSpace
        msg.startLine).1.length = data.muCapacity ↔
          data.mpcReadPt = 0 ∨ msg.startLine.length < data.getDirectSpace := by
      unfold CMemblock.getDirectSpace at *
      omega
    exact hinside
  · intro hinside
    refine h.scribble ?_ hbefore
    refine hlength.trans ?_
    unfold CMemblock.getDirectSpace at *
    omega

theorem encodeStartLine_succeeds (msg : CHttpRequest) (h : data.Layout)
    (hint : msg.startLine.length < 2 ^ 31) (hfits : msg.startLine.length < data.getSpace) :
    ∃ data', msg.encodeStartLine data = (0, data') ∧ Succeeds data msg.startLine data' := by
  have hspace := h.getSpace_eq
  have hwrite := h.write_le_length
  have hmemory := h.memory
  have hend := h.end_eq
  have hread := h.read_le
  have hsize := h.size_eq
  have hlength := length_snprintfLine msg.startLine data.getSpace hwrite
  refine ⟨_, if_neg (not_or.mpr ⟨Nat.not_le.mpr hint, Nat.not_lt.mpr hfits⟩), fun hinside => ?_,
    fun hroom => ?_⟩
  · have hinside' : (snprintfLine data.mpcBase data.mpcWritePt data.getSpace
        msg.startLine).1.length = data.muCapacity := CMemblock.inMemory_setWriteTo.mp hinside
    unfold CMemblock.getDirectSpace
    omega
  · unfold CMemblock.getDirectSpace at hroom
    refine h.extends_setWriteTo ?_ (by omega) (take_snprintfLine_of_lt hfits hwrite)
    refine hlength.trans ?_
    omega

open CHttpMessage in
theorem encodeHeader_fails (msg : CHttpMessage) (h : data.Layout)
    (hspare : 0 < data.getDirectSpace) (hfull : data.getSpace ≤ msg.text.length) :
    ∃ data', msg.encodeHeader data = (errorOobig, msg.calcContentLength, data') ∧
      Fails data (data.mpcReadPt = 0 ∨ msg.text.length ≤ data.getDirectSpace + 1) data' := by
  have hspace := h.getSpace_eq
  have hwrite := h.write_le_length
  have hmemory := h.memory
  have hend := h.end_eq
  rw [msg.length_text] at hfull ⊢
  unfold CMemblock.getDirectSpace at hspare
  have hend_lt : data.mpcWritePt < data.mpcWritePt + data.getSpace := by
    unfold CMemblock.getDirectSpace at hspace
    omega
  have hwrite_lt : data.mpcWritePt < data.mpcBase.length := by omega
  have hfst := encodeFields_fst msg.calcContentLength.moFieldList data.mpcBase hend_lt
  have hlength := length_encodeFields msg.calcContentLength.moFieldList
    (data.mpcWritePt + data.getSpace) hwrite_lt
  have hbefore := take_encodeFields msg.calcContentLength.moFieldList
    (data.mpcWritePt + data.getSpace) (Nat.le_refl data.mpcWritePt) hwrite
  -- every line is tried inside the block, just when all lines would end there
  have hinside : (encodeFields (data.mpcWritePt + data.getSpace)
      msg.calcContentLength.moFieldList data.mpcBase data.mpcWritePt).2.length = data.muCapacity ↔
        data.mpcReadPt = 0 ∨
          (msg.calcContentLength.moFieldList.flatMap fieldLine).length + 2 ≤
            data.getDirectSpace + 1 := by
    rw [hlength]
    unfold CMemblock.getDirectSpace at *
    omega
  unfold CHttpMessage.encodeHeader CMemblock.getWrite
  dsimp only
  generalize encodeFields (data.mpcWritePt + data.getSpace) msg.calcContentLength.moFieldList
    data.mpcBase data.mpcWritePt = r at *
  obtain ⟨place, memory⟩ := r
  have hfails : Fails data _ { data with mpcBase := memory } :=
    ⟨hinside, fun hin => h.scribble (hinside.mpr hin) hbefore⟩
  cases place with
  | none => exact ⟨_, rfl, hfails⟩
  | some lpcCur =>
    simp only at hfst
    split at hfst
    · cases hfst
    · cases hfst
      exact ⟨_, if_pos (by omega), hfails⟩

theorem encodeHeader_succeeds (msg : CHttpMessage) (h : data.Layout)
    (hspare : 0 < data.getDirectSpace) (hfits : msg.text.length < data.getSpace) :
    ∃ data', msg.encodeHeader data = (0, msg.calcContentLength, data') ∧
      Succeeds data msg.text data' := by
  have hwrite := h.write_le_length
  have hmemory := h.memory
  have hend := h.end_eq
  unfold CMemblock.getDirectSpace at hspare
  obtain ⟨tail, hencode, hlength⟩ :=
    CHttpMessage.encodeHeader_of_space h (Nat.lt_of_sub_pos hspare) hfits
  refine ⟨_, hencode, fun hinside => ?_, fun hroom => ?_⟩
  · have hinside' := hlength.symm.trans (CMemblock.inMemory_setWriteTo.mp hinside)
    change _ = data.muCapacity at hinside'
    unfold CMemblock.getDirectSpace
    omega
  · unfold CMemblock.getDirectSpace at hroom
    refine h.extends_setWriteTo ?_ (by omega) ?_
    · rw [hlength]
      omega
    · have hwhole : (data.mpcBase.take data.mpcWritePt ++ msg.text).length =
          data.mpcWritePt + msg.text.length := by
        rw [List.length_append, List.length_take, Nat.min_eq_left hwrite]
      rw [← List.append_assoc, ← hwhole, List.take_left]

theorem IsClean.restored {n : Int} (h : data.Layout) (hext : data.Extends [] data') (hn : n < 0) :
    msg.IsClean data n data' := by
  refine ⟨hext.layout.memory, Or.inr ⟨hn, ?_, hext.size h⟩⟩
  rw [hext.unread h, List.append_nil]

/-- A message is not clean that is in the block, but not told its size. -/
theorem IsClean.eq_length {n : Int} (hclean : msg.IsClean data n data')
    (hsize : data'.muSize = data.muSize + msg.encoded.length) : n = msg.encoded.length := by
  have hpos := length_startLine_pos msg
  have hlength : msg.startLine.length ≤ msg.encoded.length := by
    rw [encoded, List.append_assoc, List.length_append]
    omega
  rcases hclean.2 with ⟨-, -, hn⟩ | ⟨-, -, hsame⟩
  · exact hn
  · unfold CMemblock.getSize at hsame
    omega

theorem moEntity_calcContentLength (msg : CHttpMessage) :
    msg.calcContentLength.moEntity = msg.moEntity := by
  unfold CHttpMessage.calcContentLength CHttpMessage.delHeader CHttpMessage.addHeader
  dsimp only
  repeat' split
  all_goals rfl

/-- The end of `EncodeMessage`: the result and the block, once `Write` has made `written` of the
block `header`. -/
def afterBody (msg : CHttpRequest) (moved : Int) (data header written : CMemblock) :
    Int × CMemblock :=
  let lpcStart := data.mpcWritePt - if written.muCapacity = header.muCapacity then 0 else moved
  let liRet := toInt msg.getBodySize
  if liRet < 0 then (liRet, written.setWriteAt lpcStart)
  else (toInt (written.mpcWritePt - lpcStart), written)

theorem afterBody_of_neg {moved : Int} {header written : CMemblock}
    (hnegative : toInt msg.getBodySize < 0) :
    msg.afterBody moved data header written = (toInt msg.getBodySize, written.setWriteAt
      (data.mpcWritePt - if written.muCapacity = header.muCapacity then 0 else moved)) := by
  simp only [afterBody, hnegative, if_true]

theorem afterBody_of_nonneg {moved : Int} {header written : CMemblock}
    (hnegative : ¬ toInt msg.getBodySize < 0) :
    msg.afterBody moved data header written =
      (toInt (written.mpcWritePt -
        (data.mpcWritePt - if written.muCapacity = header.muCapacity then 0 else moved)),
      written) := by
  simp only [afterBody, hnegative, if_false]

theorem encodeMessage_body {header : CMemblock} (heap : Heap) (moved : Int)
    (hcapacity : data.muCapacity ≠ 0) (hstart : msg.encodeStartLine data = (0, data'))
    (hprints : msg.Prints data'.getSpace)
    (hheader : msg.encodeHeader data' = (0, msg.calcContentLength, header)) :
    msg.encodeMessage heap moved data = (header.write heap msg.moEntity).map fun written =>
      ((msg.afterBody moved data header written).1,
        { msg with toCHttpMessage := msg.calcContentLength },
        (msg.afterBody moved data header written).2) := by
  have hbody : ({ msg with toCHttpMessage := msg.calcContentLength } : CHttpRequest).encodeBody heap
      header = (header.write heap msg.moEntity).map fun written =>
        (toInt msg.getBodySize, written) := by
    unfold encodeBody CHttpMessage.getBodySize
    rw [moEntity_calcContentLength]
  unfold encodeMessage
  rw [if_neg hcapacity]
  simp only [hstart, hheader, hbody, lt_self_iff_false, if_false, not_not.mpr hprints]
  cases header.write heap msg.moEntity with
  | none => rfl
  | some written =>
    simp only [Option.map_some, afterBody, CMemblock.getWrite]
    by_cases hnegative : toInt msg.getBodySize < 0
    · simp only [hnegative, if_true]
    · simp only [hnegative, if_false]

/-- A distance that comes out as the size, as an `int`. -/
theorem toInt_eq_iff {d : Int} {size : Nat} :
    toInt d = size ↔ size < 2 ^ 31 ∧ (size - d) % 2 ^ 32 = 0 := by
  unfold toInt
  rw [Int.bmod_eq_iff (by decide)]
  omega

/-- A message that fits behind the write pointer. -/
theorem isClean_room {header : CMemblock} (heap : Heap) (moved : Int) (h : data.Layout)
    (hext : data.Extends (msg.startLine ++ msg.text) header)
    (hroom : msg.encoded.length ≤ data.getDirectSpace) :
    header.write heap msg.moEntity = some (header.append msg.moEntity) ∧
      (msg.IsClean data (msg.afterBody moved data header (header.append msg.moEntity)).1
          (msg.afterBody moved data header (header.append msg.moEntity)).2 ↔
        toInt msg.getBodySize < 0 ∨ msg.encoded.length < 2 ^ 31) := by
  have hmoved := hext.mpcWritePt
  have hend := hext.layout.end_eq.trans (hext.muCapacity.trans h.end_eq.symm)
  have hlength : msg.encoded.length =
      (msg.startLine ++ msg.text).length + msg.moEntity.length := List.length_append
  have hfits : header.mpcWritePt + msg.moEntity.length ≤ header.mpcEnd := by
    have hwrite := h.write_le
    unfold CMemblock.getDirectSpace at hroom
    omega
  have hwhole : data.Extends msg.encoded (header.append msg.moEntity) :=
    hext.trans (hext.layout.extends_append hfits)
  have hcapacity : (header.append msg.moEntity).muCapacity = header.muCapacity := rfl
  refine ⟨hext.layout.write_of_room heap hfits, ?_⟩
  by_cases hnegative : toInt msg.getBodySize < 0
  · rw [afterBody_of_neg hnegative, if_pos hcapacity, Int.sub_zero]
    dsimp only
    exact iff_of_true (IsClean.restored h (hwhole.restore h) hnegative) (Or.inl hnegative)
  · rw [afterBody_of_nonneg hnegative, if_pos hcapacity, Int.sub_zero]
    dsimp only
    have hresult : ((header.append msg.moEntity).mpcWritePt : Int) - data.mpcWritePt =
        msg.encoded.length := by
      have := hwhole.mpcWritePt
      omega
    rw [hresult]
    constructor
    · intro hclean
      have hn := hclean.eq_length (hwhole.size h)
      exact Or.inr (toInt_eq_iff.mp hn).1
    · rintro (hneg | hint)
      · exact absurd hneg hnegative
      · have hn : toInt msg.encoded.length = msg.encoded.length :=
          toInt_eq_iff.mpr ⟨hint, by omega⟩
        rw [hn]
        exact ⟨hwhole.layout.memory, Or.inl ⟨Int.natCast_nonneg _, hwhole.unread h, rfl⟩⟩

/-- A message for which the unread bytes have to make room. -/
theorem isClean_compacts {header : CMemblock} (heap : Heap) (moved : Int) (h : data.Layout)
    (hext : data.Extends (msg.startLine ++ msg.text) header)
    (hheader : (msg.startLine ++ msg.text).length < data.getDirectSpace)
    (hroom : data.getDirectSpace < msg.encoded.length)
    (hspace : msg.encoded.length ≤ data.getSpace) :
    header.write heap msg.moEntity = some (header.shrink.append msg.moEntity) ∧
      (msg.IsClean data (msg.afterBody moved data header (header.shrink.append msg.moEntity)).1
          (msg.afterBody moved data header (header.shrink.append msg.moEntity)).2 ↔
        ¬ toInt msg.getBodySize < 0 ∧ msg.encoded.length < 2 ^ 31 ∧ 2 ^ 32 ∣ data.mpcReadPt) := by
  have hmoved := hext.mpcWritePt
  have hend := hext.layout.end_eq.trans (hext.muCapacity.trans h.end_eq.symm)
  have hlength : msg.encoded.length =
      (msg.startLine ++ msg.text).length + msg.moEntity.length := List.length_append
  have hsize := hext.size h
  have hsize_eq := h.size_eq
  have hread := h.read_le
  have hwrite := h.write_le
  have hend_eq := h.end_eq
  have hcapacity_eq := hext.muCapacity
  have hspace_eq := h.getSpace_eq
  unfold CMemblock.getDirectSpace at hheader hroom
  unfold CMemblock.getSpace at hspace
  obtain ⟨hshrunk, hsame⟩ := hext.layout.shrink
  have hwritten := hshrunk.append msg.moEntity (by
    have hwritePt : header.shrink.mpcWritePt = header.muSize := rfl
    have hendPt : header.shrink.mpcEnd = header.mpcEnd := rfl
    omega)
  have hwritePt : (header.shrink.append msg.moEntity).mpcWritePt =
      header.muSize + msg.moEntity.length := rfl
  have hwritten_size : (header.shrink.append msg.moEntity).muSize =
      header.muSize + msg.moEntity.length := rfl
  have hcapacity : (header.shrink.append msg.moEntity).muCapacity = header.muCapacity := rfl
  have hunread : (header.shrink.append msg.moEntity).unread = data.unread ++ msg.encoded := by
    rw [hwritten.2, hsame, hext.unread h, List.append_assoc]
    rfl
  refine ⟨hext.layout.write_compacts heap (by omega) (by omega), ?_⟩
  by_cases hnegative : toInt msg.getBodySize < 0
  · rw [afterBody_of_neg hnegative, if_pos hcapacity, Int.sub_zero]
    dsimp only
    refine iff_of_false (fun hclean => ?_) (fun hnot => hnot.1 hnegative)
    have hset : (header.shrink.append msg.moEntity).setWriteAt data.mpcWritePt =
        { header.shrink.append msg.moEntity with
          mpcWritePt := data.mpcWritePt
          muSize := data.mpcWritePt - (header.shrink.append msg.moEntity).mpcReadPt } := by
      have hendPt : (header.shrink.append msg.moEntity).mpcEnd = header.mpcEnd := rfl
      have hreadPt : (header.shrink.append msg.moEntity).mpcReadPt = 0 := rfl
      rw [CMemblock.setWriteAt_natCast]
      exact if_neg (by omega)
    rw [hset] at hclean
    rcases hclean.2 with ⟨hzero, -, -⟩ | ⟨-, -, hsame⟩
    · exact absurd hnegative (Int.not_lt.mpr hzero)
    · -- the reader would see the bytes between the old start and the old read pointer
      change data.mpcWritePt - 0 = data.muSize at hsame
      unfold CMemblock.getDirectSpace at hspace_eq
      unfold CMemblock.getSpace at hspace_eq
      omega
  · rw [afterBody_of_nonneg hnegative, if_pos hcapacity, Int.sub_zero]
    dsimp only
    constructor
    · intro hclean
      have hn := hclean.eq_length (by rw [hwritten_size]; omega)
      obtain ⟨hint, hdvd⟩ := toInt_eq_iff.mp hn
      exact ⟨hnegative, hint, by omega⟩
    · rintro ⟨-, hint, hdvd⟩
      have hn : toInt ((header.shrink.append msg.moEntity).mpcWritePt - data.mpcWritePt) =
          msg.encoded.length := toInt_eq_iff.mpr ⟨hint, by omega⟩
      rw [hn]
      exact ⟨hwritten.1.memory, Or.inl ⟨Int.natCast_nonneg _, hunread, rfl⟩⟩

/-- A message for which the block has to grow: the result depends on where the new memory is, and
the write pointer of before is not in it. -/
theorem not_isClean_moves {header written : CMemblock} (h : data.Layout)
    (hext : data.Extends (msg.startLine ++ msg.text) header)
    (hheader : (msg.startLine ++ msg.text).length < data.getDirectSpace)
    (hspace : data.getSpace < msg.encoded.length)
    (hwrite : header.write heap msg.moEntity = some written)
    (hclean : ∀ moved : Int, data.muCapacity ≤ moved →
      msg.IsClean data (msg.afterBody moved data header written).1
        (msg.afterBody moved data header written).2) : False := by
  have hlength : msg.encoded.length =
      (msg.startLine ++ msg.text).length + msg.moEntity.length := List.length_append
  have hsize := hext.size h
  have hsize_eq := h.size_eq
  have hend_eq := h.end_eq
  have hcapacity_eq := hext.muCapacity
  have hwritten := CMemblock.write_size hwrite
  have hpos := length_startLine_pos msg
  have hsize_le := hext.layout.size_le
  rw [List.length_append] at hlength hsize
  unfold CMemblock.getDirectSpace at hheader
  unfold CMemblock.getSpace at hspace
  have hinside : written.InMemory := by
    have hfirst := (hclean data.muCapacity le_rfl).1
    by_cases hnegative : toInt msg.getBodySize < 0
    · rw [afterBody_of_neg hnegative] at hfirst
      exact CMemblock.inMemory_setWriteAt.mp hfirst
    · rw [afterBody_of_nonneg hnegative] at hfirst
      exact hfirst
  rcases hext.layout.write_full (by omega) hwrite with hpast | ⟨hread, hlarger⟩
  · exact hpast hinside
  by_cases hnegative : toInt msg.getBodySize < 0
  · have hfirst := hclean data.muCapacity le_rfl
    have hset : written.setWriteAt (data.mpcWritePt - data.muCapacity) = written :=
      if_pos (by omega)
    rw [afterBody_of_neg hnegative, if_neg (Nat.ne_of_gt hlarger), hset] at hfirst
    dsimp only at hfirst
    rcases hfirst.2 with ⟨hzero, -, -⟩ | ⟨-, -, hsame⟩
    · exact absurd hnegative (Int.not_lt.mpr hzero)
    · change written.muSize = data.muSize at hsame
      omega
  · have hall : ∀ moved : Int, data.muCapacity ≤ moved →
        toInt (written.mpcWritePt - (data.mpcWritePt - moved)) = msg.encoded.length := by
      intro moved hmoved
      have hone := hclean moved hmoved
      rw [afterBody_of_nonneg hnegative, if_neg (Nat.ne_of_gt hlarger)] at hone
      dsimp only at hone
      exact hone.eq_length (by rw [hwritten, hsize, hlength]; omega)
    -- the block is where it is, and it could be one byte further
    have hhere := toInt_eq_iff.mp (hall data.muCapacity le_rfl)
    have hthere := toInt_eq_iff.mp (hall (data.muCapacity + 1) (by omega))
    omega

/-- There is an allocator that never fails. -/
theorem zeroHeap_ample : ∀ n ≤ 2 ^ 57, CMemblock.zeroHeap.new n ≠ none := by
  intro n hn
  unfold CMemblock.zeroHeap
  dsimp only
  rw [if_pos hn]
  exact Option.some_ne_none _

/-- What does not depend on the memory that is given. -/
theorem forall_heap_iff {P : Heap → Int → Prop} {Q : Prop} (capacity : Nat)
    (hiff : ∀ heap moved, P heap moved ↔ Q) :
    (∀ (heap : Heap) (moved : Int), (∀ n ≤ 2 ^ 57, heap.new n ≠ none) →
      (capacity ≤ moved ∨ moved ≤ -2 ^ 57) → P heap moved) ↔ Q := by
  constructor
  · intro hall
    exact (hiff _ _).mp (hall CMemblock.zeroHeap capacity zeroHeap_ample (Or.inl le_rfl))
  · intro hQ heap moved _ _
    exact (hiff heap moved).mpr hQ

/-- Once the header is written, the message is all or nothing if it is so for every outcome of the
body. -/
theorem allOrNothing_header_iff {header : CMemblock} (hcapacity : data.muCapacity ≠ 0)
    (hinside : msg.StaysInside data) (hstart : msg.encodeStartLine data = (0, data'))
    (hprints : msg.Prints data'.getSpace)
    (hheader : msg.encodeHeader data' = (0, msg.calcContentLength, header)) :
    msg.AllOrNothing data ↔
      ∀ (heap : Heap) (moved : Int), (∀ n ≤ 2 ^ 57, heap.new n ≠ none) →
        (data.muCapacity ≤ moved ∨ moved ≤ -2 ^ 57) →
        ∃ written, header.write heap msg.moEntity = some written ∧
          msg.IsClean data (msg.afterBody moved data header written).1
            (msg.afterBody moved data header written).2 := by
  unfold AllOrNothing
  simp only [encodeMessage_body _ _ hcapacity hstart hprints hheader, Option.map_eq_some_iff]
  constructor
  · rintro ⟨-, hclean⟩ heap moved hample hmoved
    obtain ⟨n, msg', data', ⟨written, hwrite, heq⟩, hclean⟩ := hclean heap moved hample hmoved
    obtain ⟨rfl, -, rfl⟩ := by simpa only [Prod.mk.injEq] using heq
    exact ⟨written, hwrite, hclean⟩
  · intro hclean
    refine ⟨fun _ => hinside, fun heap moved hample hmoved => ?_⟩
    obtain ⟨written, hwrite, hclean⟩ := hclean heap moved hample hmoved
    exact ⟨_, _, _, ⟨written, hwrite, rfl⟩, hclean⟩

/-- The body, behind a header that is inside the block. -/
theorem allOrNothing_body_iff {header : CMemblock} (h : data.Layout)
    (hinside : msg.StaysInside data) (hstart : msg.encodeStartLine data = (0, data'))
    (hprints : msg.Prints data'.getSpace)
    (hheader : msg.encodeHeader data' = (0, msg.calcContentLength, header))
    (hext : data.Extends (msg.startLine ++ msg.text) header)
    (hroom : (msg.startLine ++ msg.text).length < data.getDirectSpace) :
    msg.AllOrNothing data ↔
      if toInt msg.getBodySize < 0 then msg.encoded.length ≤ data.getDirectSpace
      else msg.encoded.length < 2 ^ 31 ∧
        (msg.encoded.length ≤ data.getDirectSpace ∨
          msg.encoded.length ≤ data.getSpace ∧ 2 ^ 32 ∣ data.mpcReadPt) := by
  have hspace_eq := h.getSpace_eq
  rw [allOrNothing_header_iff (Nat.ne_of_gt h.capacity_pos) hinside hstart hprints hheader]
  rcases Nat.lt_or_ge data.getDirectSpace msg.encoded.length with hlong | hfits
  · rcases Nat.lt_or_ge data.getSpace msg.encoded.length with hlarge | hspace
    · refine iff_of_false (fun hclean => ?_) ?_
      · obtain ⟨written, hwrite, -⟩ :=
          hclean CMemblock.zeroHeap data.muCapacity zeroHeap_ample (Or.inl le_rfl)
        refine not_isClean_moves h hext hroom hlarge hwrite fun moved hmoved => ?_
        obtain ⟨written', hwrite', hclean'⟩ :=
          hclean CMemblock.zeroHeap moved zeroHeap_ample (Or.inl hmoved)
        rw [hwrite] at hwrite'
        cases hwrite'
        exact hclean'
      · by_cases hnegative : toInt msg.getBodySize < 0
        · rw [if_pos hnegative]
          exact Nat.not_le.mpr hlong
        · rw [if_neg hnegative]
          rintro ⟨-, hfits | hfits⟩
          · exact Nat.not_le.mpr hlong hfits
          · exact Nat.not_le.mpr hlarge hfits.1
    · have hbody : ∀ (heap : Heap) (moved : Int), (∃ written,
          header.write heap msg.moEntity = some written ∧
            msg.IsClean data (msg.afterBody moved data header written).1
              (msg.afterBody moved data header written).2) ↔
          ¬ toInt msg.getBodySize < 0 ∧ msg.encoded.length < 2 ^ 31 ∧ 2 ^ 32 ∣ data.mpcReadPt := by
        intro heap moved
        obtain ⟨hwrite, hclean⟩ :=
          isClean_compacts heap moved h hext hroom hlong hspace
        rw [← hclean, hwrite]
        simp only [Option.some.injEq, exists_eq_left']
      rw [forall_heap_iff data.muCapacity hbody]
      by_cases hnegative : toInt msg.getBodySize < 0
      · rw [if_pos hnegative]
        exact iff_of_false (fun hnot => hnot.1 hnegative) (Nat.not_le.mpr hlong)
      · rw [if_neg hnegative]
        simp only [hnegative, not_false_eq_true, true_and, hspace, Nat.not_le.mpr hlong, false_or]
  · have hbody : ∀ (heap : Heap) (moved : Int), (∃ written,
        header.write heap msg.moEntity = some written ∧
          msg.IsClean data (msg.afterBody moved data header written).1
            (msg.afterBody moved data header written).2) ↔
        toInt msg.getBodySize < 0 ∨ msg.encoded.length < 2 ^ 31 := by
      intro heap moved
      obtain ⟨hwrite, hclean⟩ := isClean_room heap moved h hext hfits
      rw [← hclean, hwrite]
      simp only [Option.some.injEq, exists_eq_left']
    rw [forall_heap_iff data.muCapacity hbody]
    by_cases hnegative : toInt msg.getBodySize < 0
    · rw [if_pos hnegative]
      exact iff_of_true (Or.inl hnegative) hfits
    · rw [if_neg hnegative]
      simp only [hnegative, false_or, hfits, true_or, and_true]

theorem encodeMessage_startFails (heap : Heap) (moved : Int) (hcapacity : data.muCapacity ≠ 0)
    (hstart : msg.encodeStartLine data = (errorOobig, data')) :
    msg.encodeMessage heap moved data =
      some (errorOobig, msg, data'.setWriteAt data.mpcWritePt) := by
  unfold encodeMessage
  rw [if_neg hcapacity]
  simp only [hstart]
  exact if_pos (by decide)

theorem encodeMessage_headerFails (heap : Heap) (moved : Int) (hcapacity : data.muCapacity ≠ 0)
    {header : CMemblock} (hstart : msg.encodeStartLine data = (0, data'))
    (hprints : msg.Prints data'.getSpace)
    (hheader : msg.encodeHeader data' = (errorOobig, msg.calcContentLength, header)) :
    msg.encodeMessage heap moved data =
      some (errorOobig, { msg with toCHttpMessage := msg.calcContentLength },
        header.setWriteAt data.mpcWritePt) := by
  unfold encodeMessage
  rw [if_neg hcapacity]
  simp only [hstart, hheader, lt_self_iff_false, if_false, not_not.mpr hprints]
  exact if_pos (by decide)

theorem encodeMessage_open (heap : Heap) (moved : Int) (hcapacity : data.muCapacity ≠ 0)
    (hstart : msg.encodeStartLine data = (0, data')) (hopen : ¬ msg.Prints data'.getSpace) :
    msg.encodeMessage heap moved data = none := by
  unfold encodeMessage
  rw [if_neg hcapacity]
  simp only [hstart, lt_self_iff_false, if_false, hopen, not_false_eq_true, if_true]

/-- A message is all or nothing just when it suits the block, for every message and every block. -/
theorem allOrNothing_iff (msg : CHttpRequest) (data : CMemblock)
    (hdata : data.Layout ∨ data = .init []) : msg.AllOrNothing data ↔ msg.Suits data := by
  rcases hdata with h | rfl
  rotate_left
  · -- a block without memory is refused
    refine iff_of_true ⟨fun hne => absurd rfl hne, fun heap moved _ _ => ?_⟩ trivial
    exact ⟨errorInval, msg, _, rfl, rfl, Or.inr ⟨by decide, rfl, rfl⟩⟩
  have hcapacity := Nat.ne_of_gt h.capacity_pos
  have hspace := h.getSpace_eq
  have hpos : 2 ≤ msg.text.length := by
    rw [msg.length_text]
    omega
  unfold Suits
  rw [if_neg hcapacity]
  by_cases hfull : 2 ^ 31 ≤ msg.startLine.length ∨ data.getSpace ≤ msg.startLine.length
  · rw [if_pos hfull]
    obtain ⟨data', hstart, hinside, hext⟩ := encodeStartLine_fails msg h hfull
    constructor
    · rintro ⟨hstays, -⟩
      apply hinside.mp
      have hfirst := (hstays hcapacity).1
      rwa [hstart] at hfirst
    · intro hin
      refine ⟨fun _ => ⟨?_, fun hzero => ?_⟩, fun heap moved _ _ => ?_⟩
      · rw [hstart]
        exact hinside.mpr hin
      · rw [hstart] at hzero
        exact absurd hzero (show errorOobig ≠ 0 by decide)
      · exact ⟨_, _, _, encodeMessage_startFails heap moved hcapacity hstart,
          IsClean.restored h ((hext hin).restore h) (by decide)⟩
  rw [if_neg hfull]
  obtain ⟨hint, hfits⟩ := not_or.mp hfull
  obtain ⟨data', hstart, hinside, hext⟩ :=
    encodeStartLine_succeeds msg h (Nat.not_le.mp hint) (Nat.not_le.mp hfits)
  have hneed : msg.AllOrNothing data → msg.startLine.length < data.getDirectSpace := by
    rintro ⟨hstays, -⟩
    have hfirst := (hstays hcapacity).1
    rw [hstart] at hfirst
    exact hinside hfirst
  rcases Nat.lt_or_ge msg.startLine.length data.getDirectSpace with hroom | hover
  rotate_left
  · -- the start line goes past the end, and so would the header
    refine iff_of_false (fun hall => Nat.not_lt.mpr hover (hneed hall)) ?_
    split
    · exact id
    · split
      · omega
      · omega
  have hextends := hext hroom
  have hspace' := hextends.getSpace h
  have hdirect' := hextends.getDirectSpace h
  have hread' := hextends.mpcReadPt
  rw [← hspace']
  by_cases hprints : msg.Prints data'.getSpace
  rotate_left
  · rw [if_pos hprints]
    refine iff_of_false (fun hall => ?_) id
    obtain ⟨n, msg', last, hnone, -⟩ :=
      hall.2 CMemblock.zeroHeap data.muCapacity zeroHeap_ample (Or.inl le_rfl)
    rw [encodeMessage_open _ _ hcapacity hstart hprints] at hnone
    cases hnone
  rw [if_neg (not_not.mpr hprints)]
  have hstays : ∀ {liRet : Int} {header : CMemblock},
      msg.encodeHeader data' = (liRet, msg.calcContentLength, header) →
        (msg.StaysInside data ↔ header.InMemory) := by
    intro liRet header hheader
    unfold StaysInside
    rw [hstart, hheader]
    exact ⟨fun hin => hin.2 rfl, fun hin => ⟨hextends.layout.memory, fun _ => hin⟩⟩
  by_cases hlong : data.getSpace ≤ msg.startLine.length + msg.text.length
  · rw [if_pos hlong]
    obtain ⟨header, hheader, hin, hback⟩ := encodeHeader_fails msg.toCHttpMessage hextends.layout
      (by omega) (by omega)
    have hcondition : data'.mpcReadPt = 0 ∨ msg.text.length ≤ data'.getDirectSpace + 1 ↔
        data.mpcReadPt = 0 ∨ msg.startLine.length + msg.text.length ≤ data.getDirectSpace + 1 := by
      omega
    rw [← hcondition, ← hin]
    constructor
    · rintro ⟨hall, -⟩
      exact (hstays hheader).mp (hall hcapacity)
    · intro hmemory
      refine ⟨fun _ => (hstays hheader).mpr hmemory, fun heap moved _ _ => ?_⟩
      have hwhole := hextends.trans (hback (hin.mp hmemory))
      exact ⟨_, _, _, encodeMessage_headerFails heap moved hcapacity hstart hprints hheader,
        IsClean.restored h (hwhole.restore h) (by decide)⟩
  · rw [if_neg hlong]
    obtain ⟨header, hheader, hin, hforth⟩ := encodeHeader_succeeds msg.toCHttpMessage
      hextends.layout (by omega) (by omega)
    have hlength : (msg.startLine ++ msg.text).length =
        msg.startLine.length + msg.text.length := List.length_append
    by_cases hless : msg.startLine.length + msg.text.length < data.getDirectSpace
    · have hwhole := hextends.trans (hforth (by omega))
      rw [and_iff_right hless]
      exact allOrNothing_body_iff h ((hstays hheader).mpr hwhole.layout.memory) hstart hprints
        hheader hwhole (by omega)
    · refine iff_of_false (fun hall => ?_) (fun hsuits => hless hsuits.1)
      have hroom' := hin ((hstays hheader).mp (hall.1 hcapacity))
      omega

end

/-- `GET / HTTP/1.1`, with two bytes. -/
def getRoot : CHttpRequest where
  moFieldList := [([ascii 'A'], [ascii 'x'])]
  moEntity := [ascii 'h', ascii 'i']
  mbContentLengthFlag := true
  moVersion := "1.1".toList.map ascii
  moMethod := "GET".toList.map ascii
  moUri := [ascii '/']

theorem allOrNothing_getRoot : getRoot.AllOrNothing (.init (List.replicate 64 0)) :=
  (allOrNothing_iff getRoot (.init (List.replicate 64 0))
    (Or.inl (CMemblock.layout_init (by decide) (by decide)))).mpr (by decide +kernel)

/-- A block of 64 bytes, of which 56 have been written and read. -/
def readBlock : CMemblock where
  mpcBase := List.replicate 64 0
  mpcEnd := 64
  mpcReadPt := 56
  mpcWritePt := 56
  muCapacity := 64
  muSize := 0

/-- The start line is printed past the end of the block, which has 64 bytes of space. -/
theorem not_allOrNothing_getRoot : readBlock.Layout ∧ ¬ getRoot.AllOrNothing readBlock := by
  refine ⟨⟨rfl, by decide, by decide, by decide, by decide, rfl, rfl⟩, fun h => ?_⟩
  exact absurd (h.1 (by decide)).1 (by decide)

end CHttpRequest

end HTTPClient
