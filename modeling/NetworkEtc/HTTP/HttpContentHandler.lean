-- SUMMARY: The handler that answers a request: the header text is printed to the block, then the content is written.
import Mathlib.Data.List.TakeWhile
import NetworkEtc.HTTP.HttpRequest
import NetworkEtc.Netfram.ByteQueue

/-!
# `ContentHandler`

The header text is printed to the space behind the write pointer. Where it does not fit, room is made,
but nothing is printed again: `continue` in a `do` loop on `false` leaves the loop.
-/

namespace HTTP

open Library Library.Printf HTTPClient Netfram

/-- A string literal, without the zero at its end. -/
def literal (text : String) : List UInt8 := text.toList.map ascii

/-- `CS_CRLF` -/
def crlf : List UInt8 := [cr, lf]

/-- `HTTP_HEADER_CONTENT_LENGTH` -/
def httpHeaderContentLength : List UInt8 := literal "Content-Length"

/-- `HTTP_STATUS_CODE_OK` -/
def httpStatusCodeOk : Nat := 200

/-- `HttpHeaderWrite` -/
def httpHeaderWrite (heap : Heap) (loHeader : CMemblock) (apcHeader apcValue : List UInt8) :
    Option CMemblock := do
  let loHeader ← loHeader.write heap apcHeader
  let loHeader ← loHeader.write heap (literal ": ")
  let loHeader ← loHeader.write heap apcValue
  loHeader.write heap crlf

/-- `lpcContent`, with the zero at its end. -/
def lpcContent : List UInt8 :=
  literal "<html>" ++ literal "<head><title>ttt</title></head>" ++ literal "<body>" ++
    literal "<form  action=\"asdocs\" method=\"post\">" ++ literal "name:" ++
    literal "<input type=\"text\" name=\"yourname\">" ++
    literal "<input type=\"text\" name=\"password\">" ++
    literal "<input type=\"submit\" value=\"submit\">" ++ literal "</form>" ++
    literal "</body>" ++ literal "</html>" ++ [0]

theorem length_lpcContent : lpcContent.length = 213 := by
  simp only [lpcContent, literal, List.length_append, List.length_map, List.length_singleton]
  simp

attribute [irreducible] lpcContent

/-- `MakeContent`. It writes the text once for `liSize` and once for the test; no `Write` fails. -/
def makeContent (heap : Heap) (apoReqBlock : CMemblock) : Option CMemblock := do
  let apoReqBlock ← apoReqBlock.write heap lpcContent
  apoReqBlock.write heap lpcContent

/-- The text that `ResponseHeader` prints, with the string at `version`. -/
def responseText (version : Option (List UInt8)) (code : Nat) (apcHeader : List UInt8) :
    List UInt8 :=
  (version.map cstr).getD (literal "HTTP/1.1") ++ ascii ' ' :: (Decimal.numeral code ++ ascii ' ' ::
    ((if code = httpStatusCodeOk then literal "OK" else []) ++ crlf ++
      literal "Cache-Control: no-cache" ++ crlf ++
      literal "Connection: close" ++ crlf ++ apcHeader ++ crlf))

/-- An `int` as the `size_t` that `snprintf` takes. -/
def sizeOfInt (n : Int) : Nat := (n % 2 ^ 64).toNat

/-- `ResponseHeader`, where the text is known: the memory, and what it returns. `snprintf` returns -1
for a text whose length is no `int`. -/
def responseHeader (text memory : List UInt8) (apcBuffer : Nat) (aiSize : Int32) :
    List UInt8 × Int :=
  let (memory, length) := snprintfLine memory apcBuffer (sizeOfInt aiSize.toInt) text
  (memory, if length < 2 ^ 31 then length else -1)

/-- The part of `HandleRequest` that brings the header text to the block. -/
def writeHeader (heap : Heap) (text : List UInt8) (response : CMemblock) : Option CMemblock :=
  let (mpcBase, ret) := responseHeader text response.mpcBase response.getWrite
    (Int32.ofInt response.getDirectSpace)
  let response := { response with mpcBase }
  let liSize := sizeOfInt ret
  let grown :=
    if response.getDirectSpace < liSize then
      if liSize < response.getSpace then some response.shrink
      else response.resize heap ((response.getSize + liSize + 1) % 2 ^ 64)
    else some response
  grown.map fun response => response.setWrite liSize

/-- `HandleRequest`, with the memory that its own blocks get, and what stands `behind` that of the
header. The header is a string without a zero at its end. -/
def handleRequest (heap : Heap) (version : Option (List UInt8))
    (loHeaderMemory behind loContentMemory : List UInt8) (response : CMemblock) :
    Option CMemblock := do
  let loContent ← makeContent heap (.init loContentMemory)
  let loHeader ← httpHeaderWrite heap (.init loHeaderMemory) httpHeaderContentLength
    (Decimal.numeral loContent.getSize)
  let text := responseText version httpStatusCodeOk (cstr (loHeader.getRead ++ behind))
  let response ← writeHeader heap text response
  response.write heap (loContent.getRead.take loContent.getSize)

/-! # What the response is -/

/-- The content, which is twice the text. -/
def contentBytes : List UInt8 := lpcContent ++ lpcContent

/-- The line for the length of the content. -/
def lengthLine : List UInt8 :=
  httpHeaderContentLength ++ literal ": " ++ Decimal.numeral contentBytes.length ++ crlf

/-- The header text of a response: behind the line for the length, it is what the memory holds. -/
def headerText (version : Option (List UInt8)) (loHeaderMemory behind : List UInt8) : List UInt8 :=
  responseText version httpStatusCodeOk
    (cstr (lengthLine ++ loHeaderMemory.drop lengthLine.length ++ behind))

/-- With memory of every size that there can be, the block ends up with its unread bytes, the header
text and the content. -/
def Assembles (version : Option (List UInt8)) (loHeaderMemory behind : List UInt8)
    (response : CMemblock) : Prop :=
  ∀ (heap : Heap) (loContentMemory : List UInt8), (∀ n ≤ 2 ^ 57, heap.new n ≠ none) →
    loContentMemory.length = 1024 * 10 →
    ∃ response', handleRequest heap version loHeaderMemory behind loContentMemory response =
        some response' ∧ response'.Layout ∧
      response'.unread =
        response.unread ++ headerText version loHeaderMemory behind ++ contentBytes ∧
      response'.muSize = response.muSize + (headerText version loHeaderMemory behind).length +
        contentBytes.length

/-- The text is where the block takes it to be. It has been printed with its end; or nothing has been
printed, or the bytes have been moved away from it, but the memory holds it already. -/
def Placed (response : CMemblock) (text : List UInt8) : Prop :=
  let n := sizeOfInt (Int32.ofInt response.getDirectSpace).toInt
  text.length < 2 ^ 31 ∧
    (text.length ≤ response.getDirectSpace ∧ (text.length < n ∨
        n = 0 ∧ (response.mpcBase.drop response.mpcWritePt).take text.length = text) ∨
      response.getDirectSpace < text.length ∧ text.length < response.getSpace ∧
        ((snprintfLine response.mpcBase response.mpcWritePt n text).1.drop response.muSize).take
          text.length = text)

section

variable {heap : Heap} {memory pre bytes text : List UInt8} {response response' : CMemblock}

/-! # The blocks of the handler -/

/-- A block on `memory` that has been written to. -/
def written (memory pre : List UInt8) : CMemblock :=
  { CMemblock.init memory with
    mpcBase := pre ++ memory.drop pre.length
    mpcWritePt := pre.length
    muSize := pre.length }

theorem layout_written (hpos : 0 < memory.length) (hle : memory.length ≤ 2 ^ 57)
    (hpre : pre.length ≤ memory.length) : (written memory pre).Layout := by
  refine ⟨?_, hpos, hle, Nat.zero_le _, hpre, rfl, rfl⟩
  rw [written, List.length_append, List.length_drop]
  exact Nat.add_sub_of_le hpre

theorem write_written (hle : memory.length ≤ 2 ^ 57)
    (hroom : pre.length + bytes.length ≤ memory.length) (hbytes : bytes ≠ []) :
    (written memory pre).write heap bytes = some (written memory (pre ++ bytes)) := by
  have hpos := List.length_pos_of_ne_nil hbytes
  rw [(layout_written (by omega) hle (by omega)).write_of_room heap hroom]
  simp only [CMemblock.append, written, store, List.length_append]
  rw [List.take_left, List.drop_append, List.drop_eq_nil_of_le (by omega), List.drop_drop,
    List.nil_append, Nat.add_sub_cancel_left]

theorem write_twice (hmemory : memory.length ≤ 2 ^ 57)
    (hroom : bytes.length + bytes.length ≤ memory.length) (hbytes : bytes ≠ []) :
    ((CMemblock.init memory).write heap bytes).bind (fun data => data.write heap bytes) =
      some (written memory (bytes ++ bytes)) := by
  have hinit : CMemblock.init memory = written memory [] := rfl
  have hfirst : ([] : List UInt8).length + bytes.length ≤ memory.length := by
    rw [List.length_nil]
    omega
  rw [hinit, write_written hmemory hfirst hbytes, List.nil_append, Option.bind_some]
  exact write_written hmemory hroom hbytes

theorem makeContent_eq (heap : Heap) (hmemory : memory.length = 1024 * 10) :
    makeContent heap (.init memory) = some (written memory contentBytes) := by
  have hne : lpcContent ≠ [] := List.ne_nil_of_length_pos (by rw [length_lpcContent]; decide)
  have hroom : lpcContent.length + lpcContent.length ≤ memory.length := by
    rw [length_lpcContent, hmemory]
    decide
  exact write_twice (hmemory.trans_le (by decide)) hroom hne

theorem length_contentBytes : contentBytes.length = 426 := by
  rw [contentBytes, List.length_append, length_lpcContent]

attribute [irreducible] contentBytes

theorem httpHeaderWrite_eq (heap : Heap) (hmemory : memory.length ≤ 2 ^ 57)
    {apcHeader apcValue : List UInt8} (hheader : apcHeader ≠ []) (hvalue : apcValue ≠ [])
    (hroom : (apcHeader ++ literal ": " ++ apcValue ++ crlf).length ≤ memory.length) :
    httpHeaderWrite heap (.init memory) apcHeader apcValue =
      some (written memory (apcHeader ++ literal ": " ++ apcValue ++ crlf)) := by
  have hinit : CMemblock.init memory = written memory [] := rfl
  have hcolon : literal ": " ≠ [] := by decide
  have hcrlf : crlf ≠ [] := by decide
  have hwrite : ∀ pre bytes : List UInt8, (pre ++ bytes).length ≤ memory.length → bytes ≠ [] →
      (written memory pre).write heap bytes = some (written memory (pre ++ bytes)) := by
    intro pre bytes hroom hbytes
    rw [List.length_append] at hroom
    exact write_written hmemory hroom hbytes
  simp only [List.length_append] at hroom
  have hfirst : (written memory []).write heap apcHeader = some (written memory apcHeader) :=
    hwrite [] apcHeader (by rw [List.nil_append]; omega) hheader
  have hsecond := hwrite apcHeader (literal ": ") (by simp only [List.length_append]; omega) hcolon
  have hthird := hwrite (apcHeader ++ literal ": ") apcValue
    (by simp only [List.length_append]; omega) hvalue
  have hfourth := hwrite (apcHeader ++ literal ": " ++ apcValue) crlf
    (by simp only [List.length_append]; omega) hcrlf
  unfold httpHeaderWrite
  exact Option.bind_eq_some_iff.mpr ⟨_, hfirst, Option.bind_eq_some_iff.mpr ⟨_, hsecond,
    Option.bind_eq_some_iff.mpr ⟨_, hthird, hfourth⟩⟩⟩

theorem handleRequest_of {version : Option (List UInt8)}
    {loHeaderMemory behind loContentMemory : List UInt8} {loContent loHeader : CMemblock}
    (hcontent : makeContent heap (.init loContentMemory) = some loContent)
    (hheader : httpHeaderWrite heap (.init loHeaderMemory) httpHeaderContentLength
      (Decimal.numeral loContent.getSize) = some loHeader) :
    handleRequest heap version loHeaderMemory behind loContentMemory response =
      (writeHeader heap (responseText version httpStatusCodeOk (cstr (loHeader.getRead ++ behind)))
        response).bind fun response =>
          response.write heap (loContent.getRead.take loContent.getSize) := by
  unfold handleRequest
  rw [hcontent]
  simp only [Option.bind_eq_bind]
  rw [Option.bind_some, hheader, Option.bind_some]

/-- What `MakeContent` makes. -/
theorem exists_content (heap : Heap) (hmemory : memory.length = 1024 * 10) :
    ∃ loContent, makeContent heap (.init memory) = some loContent ∧
      loContent.getSize = contentBytes.length ∧
      loContent.getRead.take loContent.getSize = contentBytes :=
  ⟨_, makeContent_eq heap hmemory, rfl, List.take_left⟩

/-- What `HttpHeaderWrite` makes of the length of the content. -/
theorem exists_header (heap : Heap) (hmemory : memory.length = 1024) :
    ∃ loHeader, httpHeaderWrite heap (.init memory) httpHeaderContentLength
        (Decimal.numeral contentBytes.length) = some loHeader ∧
      loHeader.getRead = lengthLine ++ memory.drop lengthLine.length := by
  have hnumeral : Decimal.numeral contentBytes.length = [52, 50, 54] := by
    rw [length_contentBytes]
    decide
  have hroom : lengthLine.length ≤ memory.length := by
    rw [lengthLine, hnumeral, hmemory]
    decide
  have hvalue : Decimal.numeral contentBytes.length ≠ [] := by
    rw [hnumeral]
    decide
  exact ⟨_, httpHeaderWrite_eq heap (hmemory.trans_le (by decide))
    (by decide : httpHeaderContentLength ≠ []) hvalue hroom, rfl⟩

/-- The header and the content do not depend on the memory that is to be had. -/
theorem handleRequest_eq (heap : Heap) (version : Option (List UInt8))
    {loHeaderMemory loContentMemory : List UInt8} (behind : List UInt8)
    (hheader : loHeaderMemory.length = 1024) (hcontent : loContentMemory.length = 1024 * 10)
    (response : CMemblock) :
    handleRequest heap version loHeaderMemory behind loContentMemory response =
      (writeHeader heap (headerText version loHeaderMemory behind) response).bind
        fun response => response.write heap contentBytes := by
  obtain ⟨loContent, hmake, hsize, hread⟩ := exists_content heap hcontent
  obtain ⟨loHeader, hwrite, hline⟩ := exists_header heap hheader
  rw [← hsize] at hwrite
  rw [handleRequest_of hmake hwrite, hread, hline, headerText]

/-! # The header in the block -/

/-- Bytes behind the write pointer are no part of what is unread. -/
theorem layout_store (h : response.Layout)
    (hfit : response.mpcWritePt + bytes.length ≤ response.mpcEnd) :
    { response with mpcBase := store response.mpcBase response.mpcWritePt bytes }.Layout ∧
      { response with mpcBase := store response.mpcBase response.mpcWritePt bytes }.unread =
        response.unread := by
  have hmemory := h.memory
  have hend := h.end_eq
  have hread := h.read_le
  have hsize := h.size_eq
  have hwrite := h.write_le
  refine ⟨⟨?_, h.capacity_pos, h.capacity_le, hread, hwrite, hend, hsize⟩, ?_⟩
  · exact (CMemblock.length_store (by omega)).trans hmemory
  · have hlen : (response.mpcBase.take response.mpcWritePt).length = response.mpcWritePt := by
      rw [List.length_take]
      omega
    simp only [CMemblock.unread, CMemblock.getRead, store]
    rw [List.append_assoc, List.drop_append_of_le_length (by omega), List.drop_take,
      List.take_append_of_le_length, hsize, List.take_take, Nat.min_self]
    rw [List.length_take, List.length_drop]
    omega

/-- `SetWrite` takes what stands behind the write pointer. -/
theorem layout_setWrite (h : response.Layout) {n : Nat}
    (hfit : n ≤ response.getDirectSpace) :
    (response.setWrite n).Layout ∧ (response.setWrite n).unread =
        response.unread ++ (response.mpcBase.drop response.mpcWritePt).take n ∧
      (response.setWrite n).muSize = response.muSize + n ∧
      (response.setWrite n).muCapacity = response.muCapacity := by
  have hmemory := h.memory
  have hend := h.end_eq
  have hread := h.read_le
  have hsize := h.size_eq
  have hwrite := h.write_le
  rw [CMemblock.getDirectSpace] at hfit
  rw [CMemblock.setWrite, if_neg (by omega)]
  refine ⟨⟨hmemory, h.capacity_pos, h.capacity_le, ?_, ?_, hend, ?_⟩, ?_, rfl, rfl⟩
  · simp only
    omega
  · simp only
    omega
  · simp only
    omega
  · simp only [CMemblock.unread, CMemblock.getRead]
    have hdrop : response.mpcBase.drop response.mpcWritePt =
        (response.mpcBase.drop response.mpcReadPt).drop response.muSize := by
      rw [List.drop_drop]
      congr 1
      omega
    rw [hdrop, List.take_add]

/-- How the room for the text looks to `snprintf`. -/
theorem sizeOfInt_cases {n : Nat} (hle : n ≤ 2 ^ 57) :
    sizeOfInt (Int32.ofInt n).toInt ≤ n ∧
        (n < 2 ^ 31 → sizeOfInt (Int32.ofInt n).toInt = n) ∨
      2 ^ 31 ≤ n ∧ 2 ^ 63 ≤ sizeOfInt (Int32.ofInt n).toInt := by
  have hint : (Int32.ofInt n).toInt = (n : Int).bmod (2 ^ 32) := Int32.toInt_ofInt
  rw [sizeOfInt, hint, Int.bmod_def]
  split
  · refine Or.inl ⟨by omega, fun hlt => by omega⟩
  · exact Or.inr ⟨by omega, by omega⟩

/-- The block with the text printed to it. -/
def printed (response : CMemblock) (text : List UInt8) : CMemblock :=
  { response with
    mpcBase := (snprintfLine response.mpcBase response.mpcWritePt
      (sizeOfInt (Int32.ofInt response.getDirectSpace).toInt) text).1 }

theorem layout_printed (h : response.Layout) (hlt : text.length < 2 ^ 31) :
    (printed response text).Layout ∧ (printed response text).unread = response.unread := by
  have hend := h.end_eq
  have hle := h.capacity_le
  have hwrite := h.write_le
  have hspace : response.getDirectSpace = response.mpcEnd - response.mpcWritePt := rfl
  have hcases := @sizeOfInt_cases response.getDirectSpace (by omega)
  unfold printed snprintfLine
  generalize sizeOfInt (Int32.ofInt response.getDirectSpace).toInt = n at hcases
  simp only
  split
  · exact ⟨h, rfl⟩
  · apply layout_store h
    rw [List.length_append, List.length_take, List.length_singleton]
    omega

/-- The size that the header text is taken to have. -/
def liSize (text : List UInt8) : Nat :=
  sizeOfInt (if text.length < 2 ^ 31 then text.length else -1)

theorem liSize_of_lt (hlt : text.length < 2 ^ 31) : liSize text = text.length := by
  rw [liSize, if_pos hlt, sizeOfInt]
  omega

theorem liSize_of_le (hlong : 2 ^ 31 ≤ text.length) : liSize text = 2 ^ 64 - 1 := by
  rw [liSize, if_neg (Nat.not_lt.mpr hlong)]
  decide

theorem writeHeader_eq (heap : Heap) (text : List UInt8) (response : CMemblock) :
    writeHeader heap text response =
      (if response.getDirectSpace < liSize text then
        if liSize text < response.getSpace then some (printed response text).shrink
        else (printed response text).resize heap ((response.muSize + liSize text + 1) % 2 ^ 64)
      else some (printed response text)).map fun response => response.setWrite (liSize text) :=
  rfl

theorem writeHeader_fits (heap : Heap) (hlt : text.length < 2 ^ 31)
    (hfit : text.length ≤ response.getDirectSpace) :
    writeHeader heap text response = some ((printed response text).setWrite text.length) := by
  rw [writeHeader_eq, liSize_of_lt hlt, if_neg (Nat.not_lt.mpr hfit), Option.map_some]

theorem writeHeader_shrinks (heap : Heap) (hlt : text.length < 2 ^ 31)
    (hdirect : response.getDirectSpace < text.length) (hspace : text.length < response.getSpace) :
    writeHeader heap text response =
      some ((printed response text).shrink.setWrite text.length) := by
  rw [writeHeader_eq, liSize_of_lt hlt, if_pos hdirect, if_pos hspace, Option.map_some]

theorem writeHeader_resizes (heap : Heap) (h : response.Layout) (hlt : text.length < 2 ^ 31)
    (hdirect : response.getDirectSpace < text.length) (hspace : response.getSpace ≤ text.length) :
    writeHeader heap text response =
      ((printed response text).resize heap (response.muSize + text.length + 1)).map
        fun response => response.setWrite text.length := by
  have hle := h.capacity_le
  have hsize_le := h.size_le
  rw [writeHeader_eq, liSize_of_lt hlt, if_pos hdirect, if_neg (Nat.not_lt.mpr hspace),
    Nat.mod_eq_of_lt (by omega)]

theorem writeHeader_long (heap : Heap) (h : response.Layout) (hlong : 2 ^ 31 ≤ text.length) :
    writeHeader heap text response = some (printed response text) := by
  have hle := h.capacity_le
  have hsize_le := h.size_le
  have hend := h.end_eq
  have hdirect : response.getDirectSpace < 2 ^ 64 - 1 := by
    rw [CMemblock.getDirectSpace]
    omega
  have hspace : ¬ 2 ^ 64 - 1 < response.getSpace := by
    rw [CMemblock.getSpace]
    omega
  have hmod : (response.muSize + (2 ^ 64 - 1) + 1) % 2 ^ 64 = response.muSize := by omega
  have hresize : (printed response text).resize heap response.muSize =
      some (printed response text) := if_pos hsize_le
  have hset : (printed response text).setWrite (2 ^ 64 - 1) = printed response text := if_pos hdirect
  rw [writeHeader_eq, liSize_of_le hlong, if_pos hdirect, if_neg hspace, hmod, hresize,
    Option.map_some, hset]

/-- The text is found where it has been printed, if it has been printed to its end, or if nothing has
and it is there. -/
theorem take_printed_iff (h : response.Layout) (hzero : 0 ∉ text) :
    ((printed response text).mpcBase.drop response.mpcWritePt).take text.length = text ↔
      text.length < sizeOfInt (Int32.ofInt response.getDirectSpace).toInt ∨
        sizeOfInt (Int32.ofInt response.getDirectSpace).toInt = 0 ∧
          (response.mpcBase.drop response.mpcWritePt).take text.length = text := by
  have hmemory := h.memory
  have hend := h.end_eq
  have hwrite := h.write_le
  unfold printed
  generalize sizeOfInt (Int32.ofInt response.getDirectSpace).toInt = n
  simp only
  rcases Nat.lt_or_ge text.length n with hprinted | hcut
  · refine iff_of_true ?_ (Or.inl hprinted)
    exact take_drop_snprintfLine _ _ _ _ hprinted (by omega)
  · rcases Nat.eq_zero_or_pos n with rfl | hpos
    · simp [snprintfLine]
    · -- the last byte printed is a zero, and the text has none
      refine iff_of_false (fun htake => ?_) ?_
      · have hmem : (0 : UInt8) ∈ text := by
          rw [← htake, snprintfLine, if_neg hpos.ne', store, List.append_assoc,
            List.drop_append_of_le_length (by rw [List.length_take]; omega), List.drop_take,
            Nat.sub_self, List.take_zero, List.nil_append, List.append_assoc, List.take_append]
          apply List.mem_append_right
          rw [List.length_take, Nat.min_eq_left (by omega),
            show text.length - (n - 1) = text.length - n + 1 by omega]
          exact List.mem_cons_self
        exact hzero hmem
      · rintro (hlt | ⟨hnone, -⟩)
        · omega
        · omega

/-- Moving the unread bytes leaves what stands behind them in the memory. -/
theorem drop_shrink (h : response.Layout) :
    response.shrink.mpcBase.drop response.muSize = response.mpcBase.drop response.muSize := by
  have hlen := h.length_unread
  have hmoved : response.shrink.mpcBase = store response.mpcBase 0 response.unread := rfl
  rw [hmoved, store, List.take_zero, List.nil_append, hlen, Nat.zero_add, ← hlen, List.drop_left]

/-- The block where the bytes behind the write pointer are taken for the text. -/
theorem setWrite_printed (h : response.Layout) (hlt : text.length < 2 ^ 31)
    (hfit : text.length ≤ response.getDirectSpace) :
    ((printed response text).setWrite text.length).Layout ∧
      ((printed response text).setWrite text.length).unread = response.unread ++
        ((printed response text).mpcBase.drop response.mpcWritePt).take text.length ∧
      ((printed response text).setWrite text.length).muSize = response.muSize + text.length ∧
      ((printed response text).setWrite text.length).muCapacity = response.muCapacity := by
  obtain ⟨hlayout, hunread⟩ := layout_printed h hlt
  have hroom : text.length ≤ (printed response text).getDirectSpace := hfit
  obtain ⟨hlayout', hunread', hsize, hcapacity⟩ := layout_setWrite hlayout hroom
  exact ⟨hlayout', hunread' ▸ hunread ▸ rfl, hsize, hcapacity⟩

/-- The block where the bytes behind the unread ones are, once these have been moved. -/
theorem setWrite_shrunk (h : response.Layout) (hlt : text.length < 2 ^ 31)
    (hspace : text.length < response.getSpace) :
    ((printed response text).shrink.setWrite text.length).Layout ∧
      ((printed response text).shrink.setWrite text.length).unread = response.unread ++
        ((printed response text).mpcBase.drop response.muSize).take text.length ∧
      ((printed response text).shrink.setWrite text.length).muSize =
        response.muSize + text.length ∧
      ((printed response text).shrink.setWrite text.length).muCapacity = response.muCapacity := by
  obtain ⟨hlayout, hunread⟩ := layout_printed h hlt
  obtain ⟨hshrunk, hsame⟩ := hlayout.shrink
  have hend : (printed response text).shrink.getDirectSpace =
    response.mpcEnd - response.muSize := rfl
  have hroom : text.length ≤ (printed response text).shrink.getDirectSpace := by
    rw [hend, h.end_eq]
    exact hspace.le
  obtain ⟨hlayout', hunread', hsize, hcapacity⟩ := layout_setWrite hshrunk hroom
  have hdrop : (printed response text).shrink.mpcBase.drop
      (printed response text).shrink.mpcWritePt =
        (printed response text).mpcBase.drop response.muSize := drop_shrink hlayout
  refine ⟨hlayout', ?_, hsize, hcapacity⟩
  rw [hunread', hsame, hunread, hdrop]

/-- A text that is placed is in the block. -/
theorem writeHeader_placed (heap : Heap) (h : response.Layout) (hzero : 0 ∉ text)
    (hplaced : Placed response text) : ∃ response', writeHeader heap text response = some response' ∧
      response'.Layout ∧ response'.unread = response.unread ++ text ∧
      response'.muSize = response.muSize + text.length ∧
      response'.muCapacity = response.muCapacity := by
  obtain ⟨hlt, ⟨hfit, htext⟩ | ⟨hdirect, hspace, htext⟩⟩ := hplaced
  · obtain ⟨hlayout, hunread, hsize⟩ := setWrite_printed h hlt hfit
    rw [(take_printed_iff h hzero).mpr htext] at hunread
    exact ⟨_, writeHeader_fits heap hlt hfit, hlayout, hunread, hsize⟩
  · obtain ⟨hlayout, hunread, hsize⟩ := setWrite_shrunk h hlt hspace
    refine ⟨_, writeHeader_shrinks heap hlt hdirect hspace, hlayout, ?_, hsize⟩
    exact hunread.trans (congrArg (response.unread ++ ·) htext)

/-- New memory of zeros does not hold the text. -/
theorem setWrite_grown (h : response.Layout) (hlt : text.length < 2 ^ 31) (hzero : 0 ∉ text)
    (hne : text ≠ []) {n : Nat} (hn : response.muCapacity < n)
    (hroom : response.muSize + text.length ≤ n)
    (hresize : (printed response text).resize CMemblock.zeroHeap n = some response') :
    (response'.setWrite text.length).Layout ∧
      (response'.setWrite text.length).unread ≠ response.unread ++ text := by
  obtain ⟨hlayout, hunread⟩ := layout_printed h hlt
  have hlen := hlayout.length_unread
  obtain ⟨hgrown, hsame, -, -⟩ := hlayout.resize hresize
  have hcapacity : ¬ n ≤ (printed response text).muCapacity := Nat.not_le.mpr hn
  rw [CMemblock.resize, if_neg hcapacity] at hresize
  obtain ⟨lpcAddr, hnew, hresponse'⟩ := Option.map_eq_some_iff.mp hresize
  have hzeros : ∀ c ∈ lpcAddr, c = 0 := by
    simp only [CMemblock.zeroHeap] at hnew
    split at hnew
    · cases hnew
      exact fun c hc => List.eq_of_mem_replicate hc
    · cases hnew
  have hfit : text.length ≤ response'.getDirectSpace := by
    rw [← hresponse']
    simp only [CMemblock.getDirectSpace]
    have hsize : (printed response text).muSize = response.muSize := rfl
    omega
  have hdrop : response'.mpcBase.drop response'.mpcWritePt = lpcAddr.drop response.muSize := by
    rw [← hresponse']
    have hmoved : (printed response text).getRead.take (printed response text).muSize =
      (printed response text).unread := rfl
    simp only [store, hmoved, List.take_zero, List.nil_append, Nat.zero_add]
    rw [← hlen, List.drop_left, hlen]
    rfl
  obtain ⟨hlayout', hunread', -, -⟩ := layout_setWrite hgrown hfit
  refine ⟨hlayout', fun htext => ?_⟩
  rw [hunread', hsame, hunread, hdrop] at htext
  have hmem : ∀ c ∈ text, c = 0 := by
    intro c hc
    rw [← List.append_cancel_left htext] at hc
    exact hzeros c (List.mem_of_mem_drop (List.mem_of_mem_take hc))
  obtain ⟨c, hc⟩ := List.exists_mem_of_ne_nil text hne
  exact hzero (hmem c hc ▸ hc)

/-- A text that is not placed is not in the block, if new memory holds zeros. -/
theorem writeHeader_not_placed (h : response.Layout) (hzero : 0 ∉ text) (hne : text ≠ [])
    (hnot : ¬ Placed response text)
    (hwrite : writeHeader CMemblock.zeroHeap text response = some response') :
    response'.Layout ∧ response'.unread ≠ response.unread ++ text ∨
      response'.muSize = response.muSize := by
  rcases Nat.lt_or_ge text.length (2 ^ 31) with hlt | hlong
  · left
    rcases Nat.lt_or_ge response.getDirectSpace text.length with hdirect | hfit
    · rcases Nat.lt_or_ge text.length response.getSpace with hspace | hfull
      · rw [writeHeader_shrinks _ hlt hdirect hspace] at hwrite
        cases hwrite
        obtain ⟨hlayout, hunread, -⟩ := setWrite_shrunk h hlt hspace
        refine ⟨hlayout, fun htext => hnot ⟨hlt, Or.inr ⟨hdirect, hspace, ?_⟩⟩⟩
        exact List.append_cancel_left (hunread.symm.trans htext)
      · rw [writeHeader_resizes _ h hlt hdirect hfull] at hwrite
        obtain ⟨grown, hresize, rfl⟩ := Option.map_eq_some_iff.mp hwrite
        rw [CMemblock.getSpace] at hfull
        exact setWrite_grown h hlt hzero hne (by omega) (by omega) hresize
    · rw [writeHeader_fits _ hlt hfit] at hwrite
      cases hwrite
      obtain ⟨hlayout, hunread, -⟩ := setWrite_printed h hlt hfit
      refine ⟨hlayout, fun htext => hnot ⟨hlt, Or.inl ⟨hfit, ?_⟩⟩⟩
      exact (take_printed_iff h hzero).mp (List.append_cancel_left (hunread.symm.trans htext))
  · rw [writeHeader_long _ h hlong] at hwrite
    cases hwrite
    exact Or.inr rfl

theorem headerText_ne_nil (version : Option (List UInt8)) (loHeaderMemory behind : List UInt8) :
    headerText version loHeaderMemory behind ≠ [] := by
  rw [headerText, responseText]
  exact List.append_ne_nil_of_right_ne_nil _ (List.cons_ne_nil _ _)

theorem zero_notMem_cstr (p : List UInt8) : 0 ∉ cstr p := by
  intro hmem
  exact absurd (List.mem_takeWhile_imp hmem) (by decide)

theorem zero_notMem_headerText (version : Option (List UInt8)) (loHeaderMemory behind : List UInt8) :
    0 ∉ headerText version loHeaderMemory behind := by
  rw [headerText, responseText]
  generalize hheader : cstr (lengthLine ++ loHeaderMemory.drop lengthLine.length ++ behind) = header
  have hzero : 0 ∉ header := hheader ▸ zero_notMem_cstr _
  have hversion : 0 ∉ (version.map cstr).getD (literal "HTTP/1.1") := by
    cases version with
    | none =>
      rw [Option.map_none, Option.getD_none]
      decide
    | some version => exact zero_notMem_cstr version
  have hcode : 0 ∉ Decimal.numeral httpStatusCodeOk := by decide
  have hok : 0 ∉ literal "OK" := by decide
  have hcache : 0 ∉ literal "Cache-Control: no-cache" := by decide
  have hconnection : 0 ∉ literal "Connection: close" := by decide
  have hcrlf : 0 ∉ crlf := by decide
  have hblank : (0 : UInt8) ≠ ascii ' ' := by decide
  simp only [if_pos, List.mem_append, List.mem_cons, hversion, hcode, hok, hcache, hconnection,
    hcrlf, hblank, hzero, or_self, not_false_eq_true]

theorem zeroHeap_ample : ∀ n ≤ 2 ^ 57, CMemblock.zeroHeap.new n ≠ none := by
  intro n hle
  rw [CMemblock.zeroHeap]
  simp only [if_pos hle]
  exact Option.some_ne_none _

/-- Where the response is assembled, the header text is placed. -/
theorem placed_of_assembles {version : Option (List UInt8)} {loHeaderMemory behind : List UInt8}
    (h : response.Layout) (hheader : loHeaderMemory.length = 1024)
    (hassembles : Assembles version loHeaderMemory behind response) :
    Placed response (headerText version loHeaderMemory behind) := by
  have hzero := zero_notMem_headerText version loHeaderMemory behind
  have hne := headerText_ne_nil version loHeaderMemory behind
  have hlen := List.length_pos_of_ne_nil hne
  have hcontent := length_contentBytes
  obtain ⟨response', hhandle, -, hunread', hsize'⟩ := hassembles CMemblock.zeroHeap
    (List.replicate (1024 * 10) 0) zeroHeap_ample List.length_replicate
  rw [handleRequest_eq _ _ _ hheader List.length_replicate] at hhandle
  obtain ⟨headed, hwrite, hbody⟩ := Option.bind_eq_some_iff.mp hhandle
  by_contra hnot
  rcases writeHeader_not_placed h hzero hne hnot hwrite with ⟨hlayout, hunread⟩ | hsize
  · have hexact := (hlayout.write_exact (by omega) hbody).1
    exact hunread (List.append_cancel_right (hexact.symm.trans hunread'))
  · have hgrown := CMemblock.write_size hbody
    omega

/-! # Two blocks -/

theorem length_responseText (apcHeader : List UInt8) :
    (responseText none httpStatusCodeOk apcHeader).length = 63 + apcHeader.length := by
  have hcode : Decimal.numeral httpStatusCodeOk = [50, 48, 48] := by decide
  rw [responseText, hcode, if_pos rfl]
  simp only [Option.map_none, Option.getD_none, List.length_append, List.length_cons, literal, crlf,
    List.length_map, List.length_nil]
  simp
  omega

theorem getDirectSpace_init (memory : List UInt8) :
    (CMemblock.init memory).getDirectSpace = memory.length := rfl

/-- Behind the line for the length, memory of zeros has the end of the string. -/
theorem length_headerText_zeros : (headerText none (List.replicate 1024 0) []).length = 84 := by
  have hnumeral : Decimal.numeral contentBytes.length = [52, 50, 54] := by
    rw [length_contentBytes]
    decide
  have hline : lengthLine = httpHeaderContentLength ++ literal ": " ++ [52, 50, 54] ++ crlf := by
    rw [lengthLine, hnumeral]
  have hlen : lengthLine.length = 21 := by
    rw [hline]
    decide
  have hzero : 0 ∉ lengthLine := by
    rw [hline]
    decide
  rw [headerText, length_responseText, hlen, List.drop_replicate, List.append_nil,
    List.replicate_succ, cstr_append hzero, hlen]

/-- Sixteen bytes have no room for the header text. -/
theorem not_assembles_sixteen :
    ¬ Assembles none (List.replicate 1024 0) [] (.init (List.replicate 16 0)) := by
  intro hassembles
  have hlayout : (CMemblock.init (List.replicate 16 0)).Layout :=
    CMemblock.layout_init (by decide) (by decide)
  obtain ⟨-, ⟨hfit, -⟩ | ⟨-, hspace, -⟩⟩ :=
    placed_of_assembles hlayout List.length_replicate hassembles
  · rw [headerText, length_responseText] at hfit
    have hdirect : (CMemblock.init (List.replicate 16 0)).getDirectSpace = 16 := rfl
    omega
  · rw [headerText, length_responseText] at hspace
    have hspace' : (CMemblock.init (List.replicate 16 0)).getSpace = 16 := rfl
    omega

/-- The response is assembled exactly where the header text is placed, and the content is no more than
can be written. -/
theorem assembles_iff {version : Option (List UInt8)} {loHeaderMemory behind : List UInt8}
    (h : response.Layout) (hheader : loHeaderMemory.length = 1024) :
    Assembles version loHeaderMemory behind response ↔
      Placed response (headerText version loHeaderMemory behind) ∧
        (response.muSize + (headerText version loHeaderMemory behind).length +
            contentBytes.length ≤ response.muCapacity ∨
          response.muSize + (headerText version loHeaderMemory behind).length +
              contentBytes.length ≤ 4 * response.muCapacity ∧
            4 * response.muCapacity ≤ 2 ^ 57) := by
  have hzero := zero_notMem_headerText version loHeaderMemory behind
  have hcontent : contentBytes.length < 2 ^ 50 := by
    rw [length_contentBytes]
    decide
  constructor
  · intro hassembles
    have hplaced := placed_of_assembles h hheader hassembles
    obtain ⟨response', hhandle, hlayout', -, -⟩ := hassembles CMemblock.zeroHeap
      (List.replicate (1024 * 10) 0) zeroHeap_ample List.length_replicate
    rw [handleRequest_eq _ _ _ hheader List.length_replicate] at hhandle
    obtain ⟨headed, hwrite, hbody⟩ := Option.bind_eq_some_iff.mp hhandle
    obtain ⟨_, hwrite', hlayout, -, hsize, hcapacity⟩ :=
      writeHeader_placed CMemblock.zeroHeap h hzero hplaced
    cases hwrite.symm.trans hwrite'
    have hfit := (hlayout.write_exact (by omega) hbody).2.mp hlayout'
    have hroom := (hlayout.write_isSome_iff zeroHeap_ample hcontent hfit).mp
      (Option.isSome_of_mem hbody)
    rw [hsize, hcapacity] at hfit hroom
    exact ⟨hplaced, hroom.imp id fun hle => ⟨hfit, hle⟩⟩
  · rintro ⟨hplaced, hroom⟩ heap loContentMemory hample hmemory
    obtain ⟨headed, hwrite, hlayout, hunread, hsize, hcapacity⟩ :=
      writeHeader_placed heap h hzero hplaced
    have hfit : headed.muSize + contentBytes.length ≤ 4 * headed.muCapacity := by
      omega
    have hsome := (hlayout.write_isSome_iff hample hcontent hfit).mpr (by
      rw [hsize, hcapacity]
      exact hroom.imp id And.right)
    obtain ⟨response', hbody⟩ := Option.isSome_iff_exists.mp hsome
    obtain ⟨hexact, hlayout'⟩ := hlayout.write_exact (by omega) hbody
    refine ⟨response', ?_, hlayout'.mpr hfit, ?_, ?_⟩
    · rw [handleRequest_eq heap version behind hheader hmemory, hwrite, Option.bind_some, hbody]
    · rw [hexact, hunread]
    · rw [CMemblock.write_size hbody, hsize]

/-- A kilobyte has. -/
theorem assembles_iff_kilobyte : (CMemblock.init (List.replicate 1024 0)).Layout ∧
    Assembles none (List.replicate 1024 0) [] (.init (List.replicate 1024 0)) := by
  have hlayout : (CMemblock.init (List.replicate 1024 0)).Layout :=
    CMemblock.layout_init (by rw [List.length_replicate]; decide)
      (by rw [List.length_replicate]; decide)
  have hlen := length_headerText_zeros
  have hdirect : (CMemblock.init (List.replicate 1024 0)).getDirectSpace = 1024 := by
    rw [getDirectSpace_init, List.length_replicate]
  have hsize : sizeOfInt (Int32.ofInt (1024 : Nat)).toInt = 1024 := by decide
  refine ⟨hlayout, (assembles_iff hlayout List.length_replicate).mpr ⟨⟨by omega, Or.inl ?_⟩, ?_⟩⟩
  · rw [hdirect, hsize]
    exact ⟨by omega, Or.inl (by omega)⟩
  · left
    rw [hlen, length_contentBytes, CMemblock.init, List.length_replicate]
    decide

end

end HTTP
