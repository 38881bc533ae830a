-- SUMMARY: Requests as a reader receives them: the states of the parser, and when it has one complete.
import NetworkEtc.HTTP.Headers

/-!
# `HttpRequest`

A buffer holds fewer than 2^31 bytes. A sum of two `int` wraps around.
-/

namespace HTTP

open Library Library.Printf HTTPClient Netfram

/-- `HttpRequest::State` -/
inductive RequestState where
  | requestLine
  | header
  | content
  deriving DecidableEq

structure HttpRequest where
  moHeader : CIMFHeader
  moRequestLine : RequestLine
  meState : RequestState
  miPos : Int
  miContentLen : Int32

namespace HttpRequest

/-- `Init`; everything else holds whatever it holds. -/
def init (request : HttpRequest) : HttpRequest :=
  { request with
    meState := .requestLine
    miPos := 0
    miContentLen := -1
    moHeader := .init request.moHeader.mpoHeaders }

/-- `Parse` in the state `HEADER`: what it returns, if it does not go on. -/
def parseHeader (request : HttpRequest) (fresh : NewHeaders) (memory : List UInt8) (buf : Nat)
    (len : Int) : Option Int × HttpRequest × List UInt8 :=
  let (headPos, moHeader, memory) :=
    request.moHeader.parse fresh memory buf len request.miPos.toNat
  let request := { request with moHeader }
  if headPos < 0 then (some (-1), request, memory)
  else if len ≤ headPos then (some (-1), request, memory)
  else
    let request := { request with miPos := headPos }
    let p := buf + headPos.toNat
    if memory.getD p 0 = cr ∧ memory.getD (p + 1) 0 = lf then
      (none, { request with meState := .content, miPos := headPos + 2 }, memory)
    else (some headPos, request, memory)

/-- `Parse` up to the state `CONTENT`. -/
def parseHead (request : HttpRequest) (fresh : NewHeaders) (memory : List UInt8) (buf : Nat)
    (len : Int) : Option Int × HttpRequest × List UInt8 :=
  match request.meState with
  | .requestLine =>
    let (reqPos, moRequestLine, memory) := RequestLine.parse memory buf len 0
    let request := { request with moRequestLine }
    if reqPos < 0 then (some 0, request, memory)
    else { request with miPos := reqPos, meState := .header }.parseHeader fresh memory buf len
  | .header => request.parseHeader fresh memory buf len
  | .content => (none, request, memory)

/-- What `Parse` takes for the length of the body. -/
def contentLen (moHeader : CIMFHeader) (memory : List UInt8) : Int32 :=
  match moHeader.getField memory contentLengthKey with
  | none => 0
  | some cl => atoi (memory.drop cl) -- `(int) strtol(cl, NULL, 10)`

/-- `Parse` in the state `CONTENT`. -/
def parseContent (request : HttpRequest) (memory : List UInt8) : Int × HttpRequest :=
  if request.miContentLen < 0 then
    let miContentLen := contentLen request.moHeader memory
    let miPos := (Int32.ofInt (request.miPos + miContentLen.toInt)).toInt
    (miPos, { request with miContentLen, miPos })
  else (request.miPos, request)

/-- `Parse` -/
def parse (request : HttpRequest) (fresh : NewHeaders) (memory : List UInt8) (buf : Nat) (len : Int) :
    Int × HttpRequest × List UInt8 :=
  match request.parseHead fresh memory buf len with
  | (some ret, request, memory) => (ret, request, memory)
  | (none, request, memory) =>
    let (miPos, request) := request.parseContent memory
    (miPos, request, memory)

end HttpRequest

/-! # The length of the body -/

/-- The number that a text begins with, behind blanks and a sign. -/
def number (p : List UInt8) : Int :=
  let text := p.dropWhile fun c => c = 32 ∨ (9 ≤ c ∧ c ≤ 13)
  let digits := fun text : List UInt8 => (Decimal.value (text.takeWhile Decimal.isDigit) : Int)
  match text with
  | 45 :: rest => -digits rest -- a minus sign
  | 43 :: rest => digits rest -- a plus sign
  | text => digits text

/-- A number, as `strtol` and the cast to an `int` make it. -/
def toInt (n : Int) : Int := (Int32.ofInt (max (-(2 ^ 63)) (min (2 ^ 63 - 1) n))).toInt

/-- The number in the header field of that name; none is no body. -/
def CIMFHeader.contentLength (header : CIMFHeader) (memory : List UInt8) : Int :=
  match header.getField memory contentLengthKey with
  | none => 0
  | some cl => number (memory.drop cl)

theorem toInt_number (p : List UInt8) : (atoi p).toInt = toInt (number p) := by
  unfold atoi number toInt
  dsimp only
  generalize p.dropWhile (fun c => c = 32 ∨ (9 ≤ c ∧ c ≤ 13)) = text
  by_cases hminus : ∃ rest, text = 45 :: rest
  · obtain ⟨rest, rfl⟩ := hminus
    change (Int32.ofInt (max _ (-(Decimal.value (rest.takeWhile _) : Int)))).toInt =
      (Int32.ofInt (max _ (min _ (-(Decimal.value (rest.takeWhile _) : Int))))).toInt
    congr 2
    omega
  · by_cases hplus : ∃ rest, text = 43 :: rest
    · obtain ⟨rest, rfl⟩ := hplus
      change (Int32.ofInt (min _ (Decimal.value (rest.takeWhile _) : Int))).toInt =
        (Int32.ofInt (max _ (min _ (Decimal.value (rest.takeWhile _) : Int)))).toInt
      congr 2
      omega
    · rw [not_exists] at hminus hplus
      simp only
      congr 2
      omega

theorem toInt_contentLen (header : CIMFHeader) (memory : List UInt8) :
    (HttpRequest.contentLen header memory).toInt = toInt (header.contentLength memory) := by
  unfold HttpRequest.contentLen CIMFHeader.contentLength
  cases header.getField memory contentLengthKey with
  | none => rfl
  | some cl => exact toInt_number _

theorem toInt_bounds (n : Int) : -(2 ^ 31) ≤ toInt n ∧ toInt n < 2 ^ 31 :=
  ⟨Int32.le_toInt _, Int32.toInt_lt _⟩

theorem toInt_of_lt {n : Int} (hn : 0 ≤ n) (hlt : n < 2 ^ 31) : toInt n = n := by
  rw [toInt, Int32.toInt_ofInt, min_eq_right (by omega), max_eq_right (by omega)]
  exact Int.bmod_eq_of_le (by simp only [Int32.size]; omega) (by simp only [Int32.size]; omega)

/-! # Reading on

More data comes to the same buffer, and `Parse` is called again.
-/

/-- New data, what stands behind it, and what new tables hold. -/
structure Read where
  fresh : NewHeaders
  bytes : List UInt8
  behind : List UInt8

/-- An object, and a buffer of `len` bytes at the start of the memory. Once the object has entered the
state `CONTENT`, `content` is where the headers ended then, and the length that they gave. -/
structure Reader where
  request : HttpRequest
  memory : List UInt8
  len : Nat
  content : Option (Int × Int)

namespace Reader

/-- A new object, and an empty buffer. -/
def start (raw : HttpRequest) : Reader := ⟨raw.init, [], 0, none⟩

/-- The memory, when the data has come. -/
def received (reader : Reader) (data : Read) : List UInt8 :=
  reader.memory.take reader.len ++ (data.bytes ++ data.behind)

/-- Data comes, and `Parse` is called: what it returns. -/
def read (reader : Reader) (data : Read) : Int × Reader :=
  let len := reader.len + data.bytes.length
  let (ret, request, memory) := reader.request.parse data.fresh (reader.received data) 0 len
  let content := reader.content.or
    (match reader.request.parseHead data.fresh (reader.received data) 0 len with
    | (some _, _, _) => none
    | (none, request, memory) => some (request.miPos, request.moHeader.contentLength memory))
  (ret, ⟨request, memory, len, content⟩)

def run : Reader → List Read → List (Int × Reader)
  | _, [] => []
  | reader, data :: later =>
    let next := reader.read data
    next :: run next.2 later

/-- A position that is returned in the state `CONTENT` is the end of the body, and within the buffer. -/
def Whole (t : Int × Reader) : Prop :=
  0 < t.1 → t.2.request.meState = .content → ∃ e length, t.2.content = some (e, length) ∧
    0 ≤ length ∧ t.1 = e + length ∧ t.1 ≤ t.2.len

/-- If the object enters the state `CONTENT`, a position that this call or a later one returns is that
of a whole body. -/
def Completes (reader : Reader) (data : Read) : Prop :=
  (reader.read data).2.request.meState = .content →
    ∀ later, ∀ t ∈ reader.run (data :: later), Whole t

/-- The object has not entered the state `CONTENT` yet. -/
structure Waiting (reader : Reader) : Prop where
  state : reader.request.meState ≠ .content
  contentLen : reader.request.miContentLen = -1
  content : reader.content = none

theorem waiting_start (raw : HttpRequest) : (start raw).Waiting where
  state := RequestState.noConfusion
  contentLen := rfl
  content := rfl

end Reader

namespace HttpRequest

variable {request request' : HttpRequest} {fresh : NewHeaders} {memory memory' : List UInt8}
  {buf : Nat} {len : Int}

theorem parseContent_of_neg (hneg : request.miContentLen < 0) : request.parseContent memory =
    ((Int32.ofInt (request.miPos + (contentLen request.moHeader memory).toInt)).toInt,
      { request with
        miContentLen := contentLen request.moHeader memory
        miPos := (Int32.ofInt (request.miPos + (contentLen request.moHeader memory).toInt)).toInt }) :=
  if_pos hneg

/-- What a call leaves that does not return in the state `CONTENT`, or enters it. -/
structure Left (request : HttpRequest) (len : Int) (r : Option Int × HttpRequest × List UInt8) :
    Prop where
  contentLen : r.2.1.miContentLen = request.miContentLen
  state : r.2.1.meState = .content ↔ r.1 = none
  pos : r.1 = none → 2 ≤ r.2.1.miPos ∧ r.2.1.miPos ≤ len + 1

theorem Left.of_eq {r : Option Int × HttpRequest × List UInt8} (h : Left request len r)
    (heq : request.miContentLen = request'.miContentLen) : Left request' len r :=
  ⟨h.contentLen.trans heq, h.state, h.pos⟩

theorem parseHeader_left (hstate : request.meState ≠ .content) :
    Left request len (request.parseHeader fresh memory buf len) := by
  unfold parseHeader
  simp only
  split
  · exact ⟨rfl, iff_of_false hstate (Option.some_ne_none _), fun h => by cases h⟩
  · next hnonneg =>
    split
    · exact ⟨rfl, iff_of_false hstate (Option.some_ne_none _), fun h => by cases h⟩
    · next hlt =>
      split
      · refine ⟨rfl, iff_of_true rfl rfl, fun _ => ⟨?_, ?_⟩⟩
        · simp only
          omega
        · simp only
          omega
      · exact ⟨rfl, iff_of_false hstate (Option.some_ne_none _), fun h => by cases h⟩

theorem parseHead_left (fresh : NewHeaders) (memory : List UInt8) (buf : Nat) (len : Int)
    (hstate : request.meState ≠ .content) :
    Left request len (request.parseHead fresh memory buf len) := by
  unfold parseHead
  split
  · simp only
    split
    · exact ⟨rfl, iff_of_false hstate (Option.some_ne_none _), fun h => by cases h⟩
    · exact (parseHeader_left RequestState.noConfusion).of_eq rfl
  · exact parseHeader_left hstate
  · next hcontent => exact absurd hcontent hstate

end HttpRequest

namespace Reader

open HttpRequest

variable {reader : Reader} {data : Read} {request : HttpRequest} {memory : List UInt8}
  {e length ret : Int}

/-- A call that returns in front of the state `CONTENT`. -/
theorem read_head (h : reader.request.parseHead data.fresh (reader.received data) 0
      (reader.len + data.bytes.length : Nat) = (some ret, request, memory)) :
    reader.read data =
      (ret, ⟨request, memory, reader.len + data.bytes.length, reader.content⟩) := by
  unfold Reader.read HttpRequest.parse
  simp only [h, Option.or_none]

/-- A call in the state `CONTENT`. -/
theorem read_content (h : reader.request.parseHead data.fresh (reader.received data) 0
      (reader.len + data.bytes.length : Nat) = (none, request, memory)) :
    reader.read data =
      ((request.parseContent memory).1,
        ⟨(request.parseContent memory).2, memory, reader.len + data.bytes.length,
          reader.content.or (some (request.miPos, request.moHeader.contentLength memory))⟩) := by
  unfold Reader.read HttpRequest.parse
  simp only [h]

/-- The call in which the object enters the state `CONTENT`. -/
structure Enters (reader : Reader) (data : Read) (e length : Int) : Prop where
  content : (reader.read data).2.content = some (e, length)
  state : (reader.read data).2.request.meState = .content
  ret : (reader.read data).1 = (e + toInt length).bmod (2 ^ 32)
  miPos : (reader.read data).2.request.miPos = (e + toInt length).bmod (2 ^ 32)
  contentLen : (reader.read data).2.request.miContentLen.toInt = toInt length
  again : HttpRequest.contentLen (reader.read data).2.request.moHeader (reader.read data).2.memory =
    (reader.read data).2.request.miContentLen
  pos : 2 ≤ e ∧ e ≤ (reader.len + data.bytes.length : Nat) + 1

/-- A call of an object that is waiting leaves it waiting, or enters the state `CONTENT`. -/
theorem Waiting.read (h : reader.Waiting) (data : Read) :
    (reader.read data).2.Waiting ∨ ∃ e length, reader.Enters data e length := by
  have hleft := parseHead_left data.fresh (reader.received data) 0
    (reader.len + data.bytes.length : Nat) h.state
  rcases hhead : reader.request.parseHead data.fresh (reader.received data) 0
    (reader.len + data.bytes.length : Nat) with ⟨_ | ret, request, memory⟩
  · rw [hhead] at hleft
    obtain ⟨hlen, hstate, hpos⟩ := hleft
    have hneg : request.miContentLen < 0 := by
      rw [show request.miContentLen = -1 from hlen.trans h.contentLen]
      decide
    have hread := read_content hhead
    simp only [parseContent_of_neg hneg, h.content, Option.none_or] at hread
    refine Or.inr ⟨request.miPos, request.moHeader.contentLength memory, ?_⟩
    constructor
    · rw [hread]
    · rw [hread]
      exact hstate.mpr rfl
    · rw [hread, ← toInt_contentLen]
      exact Int32.toInt_ofInt
    · rw [hread, ← toInt_contentLen]
      exact Int32.toInt_ofInt
    · rw [hread]
      exact toInt_contentLen _ _
    · rw [hread]
    · exact hpos rfl
  · rw [hhead] at hleft
    rw [read_head hhead]
    exact Or.inl ⟨fun hcontent => Option.some_ne_none _ (hleft.state.mp hcontent),
      hleft.contentLen.trans h.contentLen, h.content⟩

/-- In the state `CONTENT` with a length that is not negative, the position stays. -/
theorem run_settled (hstate : reader.request.meState = .content)
    (hlen : 0 ≤ reader.request.miContentLen) (hcontent : reader.content = some (e, length))
    (later : List Read) : ∀ t ∈ reader.run later, t.1 = reader.request.miPos ∧
      t.2.content = some (e, length) ∧ reader.len ≤ t.2.len := by
  induction later generalizing reader with
  | nil => simp [run]
  | cons data later ih =>
    have hread : reader.read data = (reader.request.miPos,
        ⟨reader.request, reader.received data, reader.len + data.bytes.length, reader.content⟩) := by
      have hhead : reader.request.parseHead data.fresh (reader.received data) 0
          (reader.len + data.bytes.length : Nat) =
            (none, reader.request, reader.received data) := by
        unfold parseHead
        rw [hstate]
      rw [read_content hhead, parseContent, if_neg (Int32.not_lt.mpr hlen), hcontent]
      rfl
    intro t ht
    rw [run, hread] at ht
    rcases List.mem_cons.mp ht with rfl | ht
    · exact ⟨rfl, hcontent, Nat.le_add_right _ _⟩
    · obtain ⟨hret, hcontent', hle⟩ := @ih ⟨reader.request, reader.received data,
        reader.len + data.bytes.length, reader.content⟩ hstate hlen hcontent t ht
      exact ⟨hret, hcontent', (Nat.le_add_right _ _).trans hle⟩

/-- No data comes, and the memory behind the buffer stays as it is. -/
def idle (reader : Reader) : Read := ⟨fun _ _ => ⟨0, 0, 0, 0⟩, [], reader.memory.drop reader.len⟩

/-- In the state `CONTENT` with a negative length, the length is added again. -/
theorem read_idle (hstate : reader.request.meState = .content)
    (hneg : reader.request.miContentLen < 0) (hcontent : reader.content = some (e, length))
    (hagain : HttpRequest.contentLen reader.request.moHeader reader.memory =
      reader.request.miContentLen) : reader.read reader.idle =
      ((reader.request.miPos + reader.request.miContentLen.toInt).bmod (2 ^ 32),
        { reader with
          request := { reader.request with
            miPos := (reader.request.miPos + reader.request.miContentLen.toInt).bmod (2 ^ 32) } }) := by
  have hmemory : reader.received reader.idle = reader.memory := by
    rw [received, idle, List.nil_append, List.take_append_drop]
  have hhead : reader.request.parseHead reader.idle.fresh (reader.received reader.idle) 0
      (reader.len + reader.idle.bytes.length : Nat) = (none, reader.request, reader.memory) := by
    unfold parseHead
    rw [hstate, hmemory]
  have hpos : (Int32.ofInt (reader.request.miPos + reader.request.miContentLen.toInt)).toInt =
      (reader.request.miPos + reader.request.miContentLen.toInt).bmod (2 ^ 32) := Int32.toInt_ofInt
  rw [read_content hhead, parseContent_of_neg hneg]
  simp only [hagain, hpos, hcontent]
  rfl

/-- Called again and again, the length is added as many times. -/
theorem run_idle (hstate : reader.request.meState = .content)
    (hneg : reader.request.miContentLen < 0) (hcontent : reader.content = some (e, length))
    (hagain : HttpRequest.contentLen reader.request.moHeader reader.memory =
      reader.request.miContentLen) (n : Nat) :
    ∃ t ∈ reader.run (List.replicate (n + 1) reader.idle),
      t.1 = (reader.request.miPos + (n + 1) * reader.request.miContentLen.toInt).bmod (2 ^ 32) ∧
      t.2.request.meState = .content ∧ t.2.content = some (e, length) := by
  have hread := read_idle hstate hneg hcontent hagain
  induction n generalizing reader with
  | zero =>
    refine ⟨_, List.mem_cons_self, ?_⟩
    rw [hread]
    refine ⟨?_, hstate, hcontent⟩
    simp
  | succ n ih =>
    have hnext := @ih (reader.read reader.idle).2
    rw [hread] at hnext
    obtain ⟨t, ht, hret, hrest⟩ := hnext hstate hneg hcontent hagain
      (read_idle hstate hneg hcontent hagain)
    refine ⟨t, ?_, ?_, hrest⟩
    · rw [List.replicate_succ, run, hread]
      exact List.mem_cons_of_mem _ ht
    · rw [hret]
      simp only [Int.bmod_add_bmod]
      congr 1
      push_cast
      ring

theorem bmod_of_lt {n : Int} (hle : -(2 ^ 31) ≤ n) (hlt : n < 2 ^ 31) : n.bmod (2 ^ 32) = n :=
  Int.bmod_eq_of_le (by omega) (by omega)

/-- A length that is not negative is added once. -/
theorem Enters.settled (h : reader.Enters data e length) (hnonneg : 0 ≤ toInt length)
    (later : List Read) : ∀ t ∈ reader.run (data :: later),
      t.1 = (e + toInt length).bmod (2 ^ 32) ∧ t.2.content = some (e, length) ∧
        reader.len + data.bytes.length ≤ t.2.len := by
  intro t ht
  rcases List.mem_cons.mp ht with rfl | ht
  · exact ⟨h.ret, h.content, le_rfl⟩
  · have hlen : 0 ≤ (reader.read data).2.request.miContentLen := by
      rw [Int32.le_iff_toInt_le, h.contentLen]
      exact hnonneg
    rw [← h.miPos]
    exact run_settled h.state hlen h.content later t ht

/-- A length that is negative is added again and again, until the position is the end of the header
lines again. -/
theorem Enters.returns (h : reader.Enters data e length) (hneg : toInt length < 0)
    (hend : e < 2 ^ 31) : ∃ later, ∃ t ∈ reader.run (data :: later),
      t.1 = e ∧ t.2.request.meState = .content ∧ t.2.content = some (e, length) := by
  have hlen : (reader.read data).2.request.miContentLen < 0 := by
    rw [Int32.lt_iff_toInt_lt, h.contentLen]
    exact hneg
  obtain ⟨n, hn⟩ : ∃ n : Nat, n + 2 = 2 ^ 32 := ⟨2 ^ 32 - 2, rfl⟩
  obtain ⟨t, ht, hret, hstate, hcontent⟩ := run_idle h.state hlen h.content h.again n
  refine ⟨_, t, List.mem_cons_of_mem _ ht, ?_, hstate, hcontent⟩
  have hturn : ((n : Int) + 2) = (2 ^ 32 : Nat) := by exact_mod_cast hn
  have hpos := h.pos
  rw [hret, h.miPos, h.contentLen, Int.bmod_add_bmod,
    show e + toInt length + (n + 1) * toInt length = e + toInt length * (n + 2) by ring, hturn,
    Int.add_mul_bmod_self_right]
  exact bmod_of_lt (by omega) hend

/-- The positions that are returned in the state `CONTENT` are those of whole bodies, if the length is
not negative and the body is there, or if the length is too large for its end to be an `int`. -/
theorem completes_iff (h : reader.Waiting) (hlen : reader.len + data.bytes.length + 1 < 2 ^ 31) :
    reader.Completes data ↔ ∀ e length, (reader.read data).2.content = some (e, length) →
      0 ≤ length ∧ e + length ≤ (reader.len + data.bytes.length : Nat) ∨
        0 ≤ toInt length ∧ 2 ^ 31 ≤ e + toInt length := by
  rcases h.read data with hwaiting | ⟨e, length, henters⟩
  · constructor
    · intro _ e length hcontent
      rw [hwaiting.content] at hcontent
      cases hcontent
    · intro _ hstate
      exact absurd hstate hwaiting.state
  · obtain ⟨hpos, hend⟩ := henters.pos
    obtain ⟨hleast, hmost⟩ := toInt_bounds length
    constructor
    · rintro hcompletes e' length' hcontent
      rw [henters.content] at hcontent
      cases hcontent
      rcases Int.lt_or_le (toInt length) 0 with hneg | hnonneg
      · obtain ⟨later, t, ht, hret, hstate, hcontent⟩ := henters.returns hneg (by omega)
        obtain ⟨e', length', hcontent', -, hsum, -⟩ :=
          hcompletes henters.state later t ht (by omega) hstate
        rw [hcontent] at hcontent'
        cases hcontent'
        obtain rfl : length = 0 := by omega
        exact absurd hneg (by decide)
      · rcases Int.lt_or_le (e + toInt length) (2 ^ 31) with hlt | hge
        · have hret := henters.ret
          rw [bmod_of_lt (by omega) hlt] at hret
          obtain ⟨e', length', hcontent', hlength, hsum, hle⟩ :=
            hcompletes henters.state [] _ List.mem_cons_self (by omega) henters.state
          rw [henters.content] at hcontent'
          cases hcontent'
          rw [hsum] at hle
          exact Or.inl ⟨hlength, hle⟩
        · exact Or.inr ⟨hnonneg, hge⟩
    · intro hcond _ later t ht hret _
      rcases hcond e length henters.content with ⟨hnonneg, hle⟩ | ⟨hnonneg, hge⟩
      · have hint : toInt length = length := toInt_of_lt hnonneg (by omega)
        obtain ⟨hret', hcontent, hlen'⟩ := henters.settled (hint.symm ▸ hnonneg) later t ht
        rw [hint, bmod_of_lt (by omega) (by omega)] at hret'
        exact ⟨e, length, hcontent, hnonneg, hret', by omega⟩
      · obtain ⟨hret', -, -⟩ := henters.settled hnonneg later t ht
        have hwrap : (e + toInt length).bmod (2 ^ 32) = e + toInt length - 2 ^ 32 := by
          rw [← bmod_of_lt (by omega) (by omega : e + toInt length - 2 ^ 32 < 2 ^ 31)]
          exact (Int.sub_bmod_right _ _).symm
        omega

/-- `G / H`, with a length of 9 and no body. -/
def nothingSent : Read where
  fresh := Fresh.zeros.keyValues
  bytes := "G / H\r\ncontent-length:9\r\n\r\n".toList.map ascii
  behind := []

/-- An object whose memory holds zeros. -/
def zeros : Reader := start
  { moHeader := .init fun _ => ⟨0, 0, 0, 0⟩
    moRequestLine := ⟨none, none, none⟩
    meState := .requestLine
    miPos := 0
    miContentLen := 0 }

/-- What is returned is the end of a body that has not come, byte 36 of 27. -/
theorem nothingSent_returned : ¬ zeros.Completes nothingSent := by
  intro h
  have hret : (zeros.read nothingSent).1 = 36 := by decide
  have hstate : (zeros.read nothingSent).2.request.meState = .content := by decide
  obtain ⟨e, length, -, -, -, hle⟩ := h hstate [] _ List.mem_cons_self (by rw [hret]; decide) hstate
  rw [hret] at hle
  exact absurd hle (by decide)

/-- The same, with a length of 1 and the body `x`. -/
def bodySent : Read where
  fresh := Fresh.zeros.keyValues
  bytes := "G / H\r\ncontent-length:1\r\n\r\nx".toList.map ascii
  behind := []

theorem completes_bodySent : zeros.Waiting ∧
    (zeros.read bodySent).2.request.meState = .content ∧ zeros.Completes bodySent := by
  have hlen : zeros.len + bodySent.bytes.length + 1 < 2 ^ 31 := by decide
  have hcontent : (zeros.read bodySent).2.content = some (27, 1) := by decide
  refine ⟨waiting_start _, by decide, (completes_iff (waiting_start _) hlen).mpr ?_⟩
  intro e length h
  cases hcontent.symm.trans h
  exact Or.inl (by decide)

end Reader

/-! # Complete requests -/

namespace Request

variable {r : Request} {line : Line}

/-- A request with a body as long as its header says is complete, if its headers end where the body
begins. -/
theorem parse_complete (hr : r.Good) (hne : r.lines ≠ []) (hroom : r.lines.length ≤ keyvalBufferSize)
    (hnot : ¬ ReadsLine (cr :: lf :: r.body))
    (hline : r.lines.find? (Line.isNamed contentLengthKey) = some line)
    (hvalue : line.value = Decimal.numeral r.body.length) (hlen : r.text.length < 2 ^ 31)
    (raw : HttpRequest) (fresh : NewHeaders) (behind : List UInt8) : ∃ request memory,
      raw.init.parse fresh (r.text ++ behind) 0 r.text.length =
        ((r.text.length : Int), request, memory) ∧ request.meState = .content := by
  have hlength := r.length_text
  obtain ⟨header, rest, hparse, htable, hcr, hlf⟩ :=
    parse_stops hr hne hroom hnot raw.moHeader.mpoHeaders fresh behind
  generalize hmemory : r.line.parsed ++ (r.lines.flatMap Line.parsed ++ rest) = memory at hparse
  have hat : ∀ j, memory.getD (r.headEnd + j) 0 = rest.getD j 0 := by
    intro j
    rw [← hmemory, ← List.append_assoc, ← r.length_parsed_head]
    simp only [List.getD_eq_getElem?_getD]
    rw [List.getElem?_append_right (Nat.le_add_right _ j), Nat.add_sub_cancel_left]
  have hfield : HttpRequest.contentLen header memory = Int32.ofInt r.body.length := by
    unfold HttpRequest.contentLen
    rcases htable.getField hmemory.symm contentLengthKey with ⟨hfind, -⟩ |
      ⟨line', ct, after, hfind, hsome, hdrop⟩
    · rw [hfind] at hline
      cases hline
    · obtain rfl : line' = line := Option.some.inj (hfind.symm.trans hline)
      rw [← header.getField_client, hsome]
      simp only
      rw [hdrop, hvalue, atoi_append (Decimal.numeral_isNumeral _), Decimal.value_numeral]
      · intro c hc
        cases hc
        decide
      · rw [Decimal.value_numeral]
        omega
  have hhead : raw.init.parseHead fresh (r.text ++ behind) 0 r.text.length =
      (none, { raw.init with
        moHeader := header
        moRequestLine := ⟨r.line.line.version, r.line.line.code, r.line.line.reason⟩
        meState := .content
        miPos := r.headEnd + 2 }, memory) := by
    unfold HttpRequest.parseHead
    simp only [HttpRequest.init]
    rw [parse_line hr]
    simp only
    rw [if_neg (by omega)]
    unfold HttpRequest.parseHeader
    simp only [Int.toNat_natCast]
    rw [hparse]
    simp only [Int.toNat_natCast, Nat.zero_add]
    rw [if_neg (by omega), if_neg (by omega), if_pos ⟨(hat 0).trans hcr, (hat 1).trans hlf⟩]
  have hend : (Int32.ofInt ((r.headEnd : Int) + 2 + (Int32.ofInt r.body.length).toInt)).toInt =
      r.text.length := by
    rw [Int32.toInt_ofInt, Int32.toInt_ofInt, Int.add_bmod_bmod, hlength]
    push_cast
    exact Reader.bmod_of_lt (by omega) (by omega)
  unfold HttpRequest.parse
  rw [hhead]
  simp only
  have hneg : raw.init.miContentLen < 0 := by
    rw [show raw.init.miContentLen = -1 from rfl]
    decide
  simp only [HttpRequest.parseContent_of_neg, hneg, hfield, hend]
  exact ⟨_, _, rfl, rfl⟩

end Request

end HTTP
