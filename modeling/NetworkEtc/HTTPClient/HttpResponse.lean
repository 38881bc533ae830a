-- SUMMARY: Responses: the states of the parser, and the handler of what a session receives.
import NetworkEtc.HTTPClient.IMF
import NetworkEtc.Netfram.Memblock
import NetworkEtc.Netfram.SockAddr

/-!
# `HttpResponse` and `CHttpHandler`

A block holds fewer than 2^31 bytes. A sum of two `int` wraps around.
-/

namespace HTTPClient

open Library Library.Printf Netfram

/-- `"content-length"` -/
def contentLengthKey : List UInt8 := "content-length".toList.map ascii

/-- `HttpResponse::State` -/
inductive ResponseState where
  | responseLine
  | header
  | content
  deriving DecidableEq

structure HttpResponse where
  moHeader : CIMFHeader
  moStatusLine : StatusLine
  meState : ResponseState
  miPos : Int
  miContentLen : Int32

namespace HttpResponse

/-- `Init`; everything else holds whatever it holds. -/
def init (response : HttpResponse) : HttpResponse :=
  { response with
    meState := .responseLine
    miPos := 0
    miContentLen := -1
    moHeader := .init response.moHeader.mpoHeaders response.moHeader.mpoChunks }

/-- `Parse` in the state `CONTENT`. -/
def parseContent (response : HttpResponse) (memory : List UInt8) : Int × HttpResponse :=
  if response.miContentLen < 0 then
    let miContentLen : Int32 :=
      match response.moHeader.getField memory contentLengthKey with
      | none => 0
      | some cl => atoi (memory.drop cl) -- `(int) strtol(cl, NULL, 10)`
    let miPos := (Int32.ofInt (response.miPos + miContentLen.toInt)).toInt
    (miPos, { response with miContentLen, miPos })
  else (response.miPos, response)

/-- `Parse` from the state `HEADER` on. -/
def parseHeader (response : HttpResponse) (fresh : Fresh) (memory : List UInt8) (buf : Nat)
    (len : Int) : Option (Int × HttpResponse × List UInt8) :=
  (response.moHeader.parse fresh memory buf len response.miPos.toNat).map
    fun (headPos, moHeader, memory) =>
      let response := { response with moHeader }
      if headPos < 0 then (-1, response, memory)
      else if len ≤ headPos then (-1, response, memory)
      else
        let response := { response with miPos := headPos }
        let p := buf + headPos.toNat
        if memory.getD (p + 1) 0 = cr ∧ memory.getD (p + 2) 0 = lf then
          let (miPos, response) :=
            { response with meState := .content, miPos := headPos + 2 }.parseContent memory
          (miPos, response, memory)
        else (headPos, response, memory)

/-- `Parse` -/
def parse (response : HttpResponse) (fresh : Fresh) (memory : List UInt8) (buf : Nat) (len : Int) :
    Option (Int × HttpResponse × List UInt8) :=
  match response.meState with
  | .responseLine =>
    let (reqPos, moStatusLine, memory) := lineParse memory buf len 0
    let response := { response with moStatusLine }
    if reqPos < 0 then some (0, response, memory)
    else { response with miPos := reqPos, meState := .header }.parseHeader fresh memory buf len
  | .header => response.parseHeader fresh memory buf len
  | .content =>
    let (miPos, response) := response.parseContent memory
    some (miPos, response, memory)

end HttpResponse

/-- An object whose memory holds zeros. -/
def HttpResponse.zeros : HttpResponse where
  moHeader := .init (fun _ => ⟨0, 0, 0, 0⟩) fun _ => ⟨0, 0⟩
  moStatusLine := ⟨none, none, none⟩
  meState := .responseLine
  miPos := 0
  miContentLen := 0

/-- New tables that hold zeros. -/
def Fresh.zeros : Fresh := ⟨fun _ _ => ⟨0, 0, 0, 0⟩, fun _ _ => ⟨0, 0⟩⟩

/-- `ChunkFinished` -/
def CIMFHeader.chunkFinished (header : CIMFHeader) : Bool := header.meChunkFinished = .chunkd

/-- What a session holds: the response that `SetData` gave it, and the block that it reads to. -/
structure HttpSession where
  data : Option HttpResponse
  block : CMemblock

namespace CHttpHandler

/-- `MessageRecived`, with the object that it works on. The memory of a new object holds what
`raw` holds. An object that the session has is changed in place. -/
def messageRecived (raw : HttpResponse) (fresh : Fresh) (session : HttpSession) :
    Option (HttpSession × HttpResponse) :=
  let reqblock := session.block
  let lpoResponse := session.data.getD raw.init
  (lpoResponse.parse fresh reqblock.mpcBase reqblock.mpcReadPt reqblock.getSize).map
    fun (liRet, lpoResponse, memory) =>
      let reqblock := { reqblock with mpcBase := memory }
      let data := session.data.map fun _ => lpoResponse
      if 0 < liRet then
        if lpoResponse.moHeader.chunkFinished then -- `HandleResponse`
          (⟨data, reqblock.reset⟩, lpoResponse)
        else (⟨some lpoResponse, (reqblock.setRead liRet.toNat).2⟩, lpoResponse)
      else (⟨data, reqblock.reset⟩, lpoResponse)

/-- Bytes are read to the block of the session, and handled. -/
def receive (raw : HttpResponse) (fresh : Fresh) (session : HttpSession) (bytes : List UInt8) :
    Option (HttpSession × HttpResponse) :=
  messageRecived raw fresh { session with block := session.block.append bytes }

end CHttpHandler

/-! # What becomes of the tables -/

namespace HttpResponse

variable {response : HttpResponse} {fresh : Fresh} {memory memory' : List UInt8} {buf : Nat}
  {len ret : Int} {moHeader : CIMFHeader}

@[simp] theorem parseContent_moHeader :
    (response.parseContent memory).2.moHeader = response.moHeader := by
  unfold parseContent
  split
  · rfl
  · rfl

@[simp] theorem parseContent_moStatusLine :
    (response.parseContent memory).2.moStatusLine = response.moStatusLine := by
  unfold parseContent
  split
  · rfl
  · rfl

@[simp] theorem parseContent_meState :
    (response.parseContent memory).2.meState = response.meState := by
  unfold parseContent
  split
  · rfl
  · rfl

/-- Nothing but the parser of the header changes the tables. -/
theorem parseHeader_tables (response : HttpResponse) (fresh : Fresh) (memory : List UInt8) (buf : Nat)
    (len : Int) : (response.parseHeader fresh memory buf len).map
      (fun r => (r.2.1.moStatusLine, r.2.1.moHeader, r.2.2)) =
    (response.moHeader.parse fresh memory buf len response.miPos.toNat).map
      fun r => (response.moStatusLine, r.2.1, r.2.2) := by
  unfold parseHeader
  rw [Option.map_map]
  congr 1
  funext ⟨headPos, moHeader, memory'⟩
  simp only [Function.comp_apply]
  split
  · rfl
  · split
    · rfl
    · split
      · simp only [parseContent_moStatusLine, parseContent_moHeader]
      · rfl

theorem parseHeader_reset
    (h : response.moHeader.parse fresh memory buf len response.miPos.toNat =
      some (ret, moHeader, memory')) (hret : ret < 0 ∨ len ≤ ret) :
    response.parseHeader fresh memory buf len = some (-1, { response with moHeader }, memory') := by
  rw [parseHeader, h, Option.map_some]
  simp only
  rcases hret with hneg | hge
  · rw [if_pos hneg]
  · rw [if_pos hge]
    simp only [ite_self]

theorem parseHeader_content (response : HttpResponse) (buf : Nat)
    (h : response.moHeader.parse fresh memory buf len response.miPos.toNat =
      some (ret, moHeader, memory')) (hnonneg : 0 ≤ ret) (hlt : ret < len)
    (hcrlf : memory'.getD (buf + ret.toNat + 1) 0 = cr ∧ memory'.getD (buf + ret.toNat + 2) 0 = lf) :
    ∃ response', response.parseHeader fresh memory buf len =
        some ((HttpResponse.parseContent
          { response with moHeader, miPos := ret + 2, meState := .content } memory').1,
          response', memory') ∧
      response'.moHeader = moHeader ∧ response'.moStatusLine = response.moStatusLine ∧
      response'.meState = .content := by
  rw [parseHeader, h, Option.map_some]
  simp only [if_neg (Int.not_lt.mpr hnonneg), if_neg (Int.not_le.mpr hlt), if_pos hcrlf]
  exact ⟨_, rfl, by simp, by simp, by simp⟩

theorem parseHeader_stays
    (h : response.moHeader.parse fresh memory buf len response.miPos.toNat =
      some (ret, moHeader, memory')) (hnonneg : 0 ≤ ret) (hlt : ret < len)
    (hcrlf : ¬ (memory'.getD (buf + ret.toNat + 1) 0 = cr ∧
      memory'.getD (buf + ret.toNat + 2) 0 = lf)) :
    response.parseHeader fresh memory buf len =
      some (ret, { response with moHeader, miPos := ret }, memory') := by
  rw [parseHeader, h, Option.map_some]
  simp only [if_neg (Int.not_lt.mpr hnonneg), if_neg (Int.not_le.mpr hlt), if_neg hcrlf]

end HttpResponse

/-! # Two reads -/

/-- The header of a new object, at the start of a block. -/
def HttpResponse.begun (raw : HttpResponse) : CIMFHeader :=
  { CIMFHeader.init raw.moHeader.mpoHeaders raw.moHeader.mpoChunks with mpcData := some 0 }

namespace CHttpHandler

/-- Two reads to a block on `memory`, which is empty. The second one is handled with the object of
the first, if the session has it. If not, the object has ended with the first read, and it must have
finished. -/
def receiveTwo (raw : HttpResponse) (fresh : Fresh) (memory first second : List UInt8) :
    Option (HttpSession × HttpResponse) :=
  (receive raw fresh ⟨none, .init memory⟩ first).bind fun (session, response) =>
    if session.data.isSome then receive raw fresh session second
    else if response.moHeader.chunkFinished then some (session, response)
    else none

/-- The status line and the header of a response, and the memory of the block. -/
def tables (r : HttpSession × HttpResponse) : StatusLine × CIMFHeader × List UInt8 :=
  (r.2.moStatusLine, r.2.moHeader, r.1.block.mpcBase)

variable {raw response response' : HttpResponse} {fresh : Fresh} {session : HttpSession}
  {memory memory' memory'' first second bytes : List UInt8} {liRet ret : Int} {reqPos : Nat}
  {line : StatusLine} {moHeader : CIMFHeader}

theorem messageRecived_tables : (messageRecived raw fresh session).map tables =
    ((session.data.getD raw.init).parse fresh session.block.mpcBase session.block.mpcReadPt
      session.block.getSize).map fun r => (r.2.1.moStatusLine, r.2.1.moHeader, r.2.2) := by
  unfold messageRecived
  simp only [Option.map_map]
  congr 1
  funext ⟨liRet, response, memory⟩
  simp only [Function.comp_apply]
  split
  · split
    · rfl
    · simp only [tables, CMemblock.setRead]
      split
      · rfl
      · rfl
  · rfl

/-- A block on `memory` that has been read to, and whose memory has become `memory'`. -/
def filled (memory memory' : List UInt8) (size : Nat) : CMemblock :=
  { CMemblock.init memory with mpcBase := memory', mpcWritePt := size, muSize := size }

theorem append_init : (CMemblock.init memory).append bytes =
    filled memory (bytes ++ memory.drop bytes.length) bytes.length := by
  simp [filled, CMemblock.init, CMemblock.append, store]

/-- What becomes of a first read. -/
theorem receive_first
    (hparse : raw.init.parse fresh (bytes ++ memory.drop bytes.length) 0 bytes.length =
      some (liRet, response, memory')) :
    receive raw fresh ⟨none, .init memory⟩ bytes =
      some (if 0 < liRet ∧ response.moHeader.chunkFinished = false then
          (⟨some response, ((filled memory memory' bytes.length).setRead liRet.toNat).2⟩, response)
        else (⟨none, (filled memory memory' bytes.length).reset⟩, response)) := by
  unfold receive messageRecived
  simp only [append_init]
  have hget : raw.init.parse fresh (filled memory (bytes ++ memory.drop bytes.length)
      bytes.length).mpcBase 0 bytes.length = some (liRet, response, memory') := hparse
  have hread : ∀ memory', (filled memory memory' bytes.length).mpcReadPt = 0 := fun _ => rfl
  have hsize : ∀ memory', (filled memory memory' bytes.length).getSize = bytes.length := fun _ => rfl
  simp only [Option.getD_none, hread, hsize, hget, Option.map_some, Option.map_none]
  congr 1
  by_cases hpos : 0 < liRet
  · cases hfinished : response.moHeader.chunkFinished with
    | true =>
      simp only [if_pos hpos, if_true, Bool.true_eq_false, and_false, if_false]
      rfl
    | false =>
      simp only [hpos, Bool.false_eq_true, and_self, if_false, if_true]
      rfl
  · simp only [hpos, false_and, if_false]
    rfl

/-- A response that has finished with the first read is the result. -/
theorem receiveTwo_finished
    (hparse : raw.init.parse fresh (first ++ memory.drop first.length) 0 first.length =
      some (liRet, response, memory')) (hfinished : response.moHeader.chunkFinished = true) :
    (receiveTwo raw fresh memory first second).map tables =
      some (response.moStatusLine, response.moHeader, memory') := by
  rw [receiveTwo, receive_first hparse, Option.bind_some]
  rw [if_neg (by simp [hfinished])]
  simp only [Option.isSome_none, Bool.false_eq_true, if_false, hfinished, if_true, Option.map_some]
  rfl

/-- A response that has not, and that nothing is said to be read of, is lost. -/
theorem receiveTwo_dropped
    (hparse : raw.init.parse fresh (first ++ memory.drop first.length) 0 first.length =
      some (liRet, response, memory')) (hfinished : response.moHeader.chunkFinished = false)
    (hret : liRet ≤ 0) : receiveTwo raw fresh memory first second = none := by
  rw [receiveTwo, receive_first hparse, Option.bind_some]
  rw [if_neg (by omega)]
  simp only [Option.isSome_none, Bool.false_eq_true, if_false, hfinished]

/-- A response that is kept gets the second read. -/
theorem receiveTwo_kept
    (hparse : raw.init.parse fresh (first ++ memory.drop first.length) 0 first.length =
      some (liRet, response, memory')) (hfinished : response.moHeader.chunkFinished = false)
    (hret : 0 < liRet) :
    (receiveTwo raw fresh memory first second).map tables =
      let block := ((filled memory memory' first.length).setRead liRet.toNat).2
      (response.parse fresh (store memory' first.length second) block.mpcReadPt
        (block.muSize + second.length : Nat)).map
          fun r => (r.2.1.moStatusLine, r.2.1.moHeader, r.2.2) := by
  rw [receiveTwo, receive_first hparse, Option.bind_some]
  rw [if_pos ⟨hret, hfinished⟩]
  simp only [Option.isSome_some, if_true, receive, messageRecived_tables, Option.getD_some]
  have hwrite : ((filled memory memory' first.length).setRead liRet.toNat).2.mpcWritePt =
      first.length := by
    unfold CMemblock.setRead
    split
    · rfl
    · rfl
  have hbase : ((filled memory memory' first.length).setRead liRet.toNat).2.mpcBase = memory' := by
    unfold CMemblock.setRead
    split
    · rfl
    · rfl
  simp only [CMemblock.append, CMemblock.getSize, hwrite, hbase]

/-- Without a whole status line nothing is kept. -/
theorem receiveTwo_line
    (hline : (lineParse (first ++ memory.drop first.length) 0 first.length 0).1 = -1) :
    receiveTwo raw fresh memory first second = none := by
  have hparse : ∃ response memory', raw.init.parse fresh (first ++ memory.drop first.length) 0
      first.length = some (0, response, memory') ∧ response.moHeader.chunkFinished = false := by
    unfold HttpResponse.parse
    simp only [HttpResponse.init]
    rw [if_pos (by rw [hline]; decide)]
    exact ⟨_, _, rfl, rfl⟩
  obtain ⟨response, memory', hparse, hfinished⟩ := hparse
  exact receiveTwo_dropped hparse hfinished le_rfl

section

variable (hline : lineParse (first ++ memory.drop first.length) 0 first.length 0 =
  ((reqPos : Int), line, memory'))

include hline in
theorem parse_line (raw : HttpResponse) (fresh : Fresh) :
    raw.init.parse fresh (first ++ memory.drop first.length) 0 first.length =
    HttpResponse.parseHeader
      { raw.init with moStatusLine := line, miPos := reqPos, meState := .header } fresh memory' 0
      first.length := by
  unfold HttpResponse.parse
  simp only [HttpResponse.init, hline]
  rw [if_neg (Int.not_lt.mpr (Int.natCast_nonneg reqPos))]

include hline in
/-- The tables after one read. -/
theorem receive_tables : (receive raw fresh ⟨none, .init memory⟩ first).map tables =
    (raw.begun.parseFrom fresh memory' 0 first.length reqPos).map
      fun r => (line, r.2.1, r.2.2) := by
  rw [receive, messageRecived_tables, append_init]
  have htables := HttpResponse.parseHeader_tables
    { raw.init with moStatusLine := line, miPos := reqPos, meState := .header } fresh memory' 0
    first.length
  rw [← parse_line hline raw fresh] at htables
  exact htables

variable (hheader : raw.begun.parseFrom fresh memory' 0 first.length reqPos =
  some (ret, moHeader, memory''))

include hline hheader in
/-- A header that has finished with the first read is the result. -/
theorem receiveTwo_header_finished (hfinished : moHeader.chunkFinished = true) :
    (receiveTwo raw fresh memory first second).map tables = some (line, moHeader, memory'') := by
  have htables := HttpResponse.parseHeader_tables
    { raw.init with moStatusLine := line, miPos := reqPos, meState := .header } fresh memory' 0
    first.length
  rw [← parse_line hline raw fresh] at htables
  obtain ⟨⟨liRet, response, _⟩, hparse, heq⟩ := Option.map_eq_some_iff.mp
    (htables.trans (congrArg _ hheader))
  cases heq
  exact receiveTwo_finished hparse hfinished

include hline hheader in
/-- A header that ends behind the bytes is lost. -/
theorem receiveTwo_header_dropped (hfinished : moHeader.chunkFinished = false)
    (hret : ret < 0 ∨ (first.length : Int) ≤ ret) :
    receiveTwo raw fresh memory first second = none := by
  have hparse := (parse_line hline raw fresh).trans
    (HttpResponse.parseHeader_reset hheader hret)
  exact receiveTwo_dropped hparse hfinished (by decide)

include hline hheader in
/-- A header that ends within the bytes is kept, and the second read goes on with it. -/
theorem receiveTwo_header_kept (hfinished : moHeader.chunkFinished = false)
    (hdata : moHeader.mpcData = some 0) (hpos : 0 < ret) (hlt : ret < first.length)
    (hcrlf : ¬ (memory''.getD (ret.toNat + 1) 0 = cr ∧ memory''.getD (ret.toNat + 2) 0 = lf)) :
    (receiveTwo raw fresh memory first second).map tables =
      (moHeader.parseFrom fresh (store memory'' first.length second) 0
        (first.length + second.length : Nat) ret.toNat).map fun r => (line, r.2.1, r.2.2) := by
  have hparse := (parse_line hline raw fresh).trans
    (HttpResponse.parseHeader_stays hheader hpos.le hlt (by simpa using hcrlf))
  have hread : (filled memory memory'' first.length).setRead ret.toNat =
      (some ret.toNat, { filled memory memory'' first.length with
        mpcReadPt := 0 + ret.toNat
        muSize := first.length - ret.toNat }) := by
    rw [CMemblock.setRead, if_neg]
    · rfl
    · simp only [filled]
      omega
  rw [receiveTwo_kept hparse hfinished hpos]
  simp only [hread, Nat.zero_add]
  have hheader' : ∀ response : HttpResponse, response.meState = .header →
      response.parse fresh (store memory'' first.length second) ret.toNat
          (first.length - ret.toNat + second.length : Nat) =
        response.parseHeader fresh (store memory'' first.length second) ret.toNat
          (first.length - ret.toNat + second.length : Nat) := by
    intro response hstate
    rw [HttpResponse.parse, hstate]
  rw [hheader' _ rfl, HttpResponse.parseHeader_tables]
  have hlen : ((first.length - ret.toNat + second.length : Nat) : Int) + ret.toNat =
      (first.length + second.length : Nat) := by omega
  simp only [CIMFHeader.parse, hdata, Nat.zero_add, if_true, hlen]

include hline hheader in
/-- A header that ends where the bytes look like an empty line is taken for whole. The second read
does not go on with it. -/
theorem receiveTwo_header_content (hfinished : moHeader.chunkFinished = false)
    (hnonneg : 0 ≤ ret) (hlt : ret < first.length)
    (hcrlf : memory''.getD (ret.toNat + 1) 0 = cr ∧ memory''.getD (ret.toNat + 2) 0 = lf) :
    (receiveTwo raw fresh memory first second).map tables =
      if 0 < (HttpResponse.parseContent ⟨moHeader, line, .content, ret + 2, -1⟩ memory'').1 then
        some (line, moHeader, store memory'' first.length second)
      else none := by
  obtain ⟨response, hparse, rfl, hstatus, hstate⟩ := HttpResponse.parseHeader_content
    { raw.init with moStatusLine := line, miPos := reqPos, meState := .header } 0 hheader hnonneg
    hlt (by simpa using hcrlf)
  replace hparse := (parse_line hline raw fresh).trans hparse
  split
  · next hpos =>
    rw [receiveTwo_kept hparse hfinished hpos]
    simp only [HttpResponse.parse, hstate, Option.map_some, HttpResponse.parseContent_moStatusLine,
      HttpResponse.parseContent_moHeader, hstatus]
  · next hneg =>
    rw [receiveTwo_dropped hparse hfinished (Int.not_lt.mp hneg), Option.map_none]

end

end CHttpHandler

end HTTPClient
