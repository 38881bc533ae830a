-- SUMMARY: Complete responses, and what the parser records of one that is read at once.
import NetworkEtc.HTTPClient.Chunks
import NetworkEtc.HTTPClient.HttpResponse

/-!
# Complete responses

A response is a status line, header lines, an empty line and a body.
-/

namespace HTTPClient

open Library Library.Printf Netfram CIMFHeader CHttpHandler

/-- What stands behind the empty line. -/
inductive Body where
  | plain (bytes : List UInt8)
  | chunked (text : ChunkedText)
  deriving DecidableEq

namespace Body

def text : Body → List UInt8
  | plain bytes => bytes
  | chunked text => text.text

def chunks : Body → List ChunkText
  | plain _ => []
  | chunked text => text.chunks

end Body

structure Response where
  status : Status
  lines : List Line
  body : Body
  deriving DecidableEq

namespace Response

/-- Where the empty line begins. -/
def headEnd (r : Response) : Nat := r.status.text.length + (r.lines.flatMap Line.text).length

def text (r : Response) : List UInt8 :=
  r.status.text ++ (r.lines.flatMap Line.text ++ cr :: lf :: r.body.text)

theorem length_text (r : Response) : r.text.length = r.headEnd + 2 + r.body.text.length := by
  simp only [text, headEnd, List.length_append, List.length_cons]
  omega

/-- There is a header line, and the lines announce a body in chunks if it is one. -/
structure Good (r : Response) : Prop where
  status : r.status.Good
  lines : ∀ line ∈ r.lines, line.Good
  lines_ne_nil : r.lines ≠ []
  plain : ∀ bytes, r.body = .plain bytes → announced r.lines = false
  chunked : ∀ text, r.body = .chunked text → announced r.lines = true ∧ text.Good

/-- The tables need not grow. -/
structure Fits (r : Response) : Prop where
  lines : r.lines.length ≤ keyvalBufferSize
  chunks : r.body.chunks.length ≤ keyvalBufferSize

/-- The tables are those of the response. -/
structure Recorded (r : Response) (t : StatusLine × CIMFHeader × List UInt8) : Prop where
  line : t.1 = r.status.line
  table : Tabled t.2.1 r.status.parsed r.lines
  memory : ∃ rest, t.2.2 = r.status.parsed ++ (r.lines.flatMap Line.parsed ++ rest)
  chunkSize : t.2.1.miChunkSize = r.body.chunks.length
  chunks : ∃ mpoChunks, t.2.1.mpoChunks = enterChunks mpoChunks 0 (r.headEnd + 2) r.body.chunks

end Response

/-- The texts that a status line leads to. -/
def StatusLine.texts (line : StatusLine) (memory : List UInt8) : List (Option (List UInt8)) :=
  [line.version, line.code, line.reason].map fun p => p.map fun p => cstr (memory.drop p)

/-- The status lines, the header tables and the chunk tables are the same. -/
structure SameTables (one two : StatusLine × CIMFHeader × List UInt8) : Prop where
  line : two.1 = one.1
  texts : two.1.texts two.2.2 = one.1.texts one.2.2
  headerSize : two.2.1.miHeaderSize = one.2.1.miHeaderSize
  headers : ∀ i < one.2.1.miHeaderSize, two.2.1.mpoHeaders i = one.2.1.mpoHeaders i
  pairs : two.2.1.pairs two.2.2 = one.2.1.pairs one.2.2
  chunkSize : two.2.1.miChunkSize = one.2.1.miChunkSize
  chunks : ∀ i < one.2.1.miChunkSize, two.2.1.mpoChunks i = one.2.1.mpoChunks i

/-! # Recorded tables -/

section

variable {r : Response} {one two : StatusLine × CIMFHeader × List UInt8} {header : CIMFHeader}
  {pre rest memory : List UInt8} {lines : List Line} {status : Status}

theorem Status.texts_line (h : status.Good) (rest : List UInt8) :
    status.line.texts (status.parsed ++ rest) =
      [some status.version, some status.code, some status.reason] := by
  have hcstr : ∀ {text : List UInt8} (m : List UInt8), (∀ c ∈ text, c ≠ 0) →
      cstr (text ++ 0 :: m) = text := by
    intro text m htext
    unfold cstr
    rw [List.takeWhile_append_of_pos fun c hc => by simpa using htext c hc]
    simp
  have hversion : (status.parsed ++ rest).drop 0 = status.version ++ 0 :: (status.code ++ 0 ::
      (status.reason ++ 0 :: lf :: rest)) := by simp [parsed]
  have hcode : (status.parsed ++ rest).drop (status.version.length + 1) = status.code ++ 0 ::
      (status.reason ++ 0 :: lf :: rest) := by
    rw [← List.drop_drop, ← List.drop_zero (l := status.parsed ++ rest), hversion, List.drop_left]
    rfl
  have hreason : (status.parsed ++ rest).drop (status.version.length + status.code.length + 2) =
      status.reason ++ 0 :: lf :: rest := by
    rw [show status.version.length + status.code.length + 2 =
      status.version.length + 1 + (status.code.length + 1) by omega, ← List.drop_drop, hcode,
      ← List.drop_drop, List.drop_left]
    rfl
  unfold StatusLine.texts Status.line
  simp only [List.map_cons, List.map_nil, Option.map_some, hversion, hcode, hreason]
  rw [hcstr _ fun c hc => (h.version c hc).2.2.2, hcstr _ fun c hc => (h.code c hc).2.2.2,
    hcstr _ fun c hc => (h.reason c hc).2.2]

theorem Tabled.pairs (h : Tabled header pre lines)
    (hmemory : memory = pre ++ (lines.flatMap Line.parsed ++ rest)) :
    header.pairs memory = lines.map Line.field := by
  obtain ⟨mpoHeaders, hentries⟩ := h.entries
  unfold CIMFHeader.pairs
  rw [h.size, h.data, Option.getD_some, hentries, hmemory]
  apply List.ext_getElem?
  intro i
  rw [List.getElem?_map, List.getElem?_map]
  cases hi : lines[i]? with
  | none =>
    rw [List.getElem?_eq_none (by simpa using hi)]
    rfl
  | some line =>
    have hpair : (enter mpoHeaders 0 (pre.length - 0) lines (0 + i)).pair
        ((pre ++ (lines.flatMap Line.parsed ++ rest)).drop 0) = line.field :=
      pair_enter (Nat.zero_le pre.length) hi
    rw [Nat.zero_add, Nat.sub_zero] at hpair
    rw [List.getElem?_range (List.getElem?_eq_some_iff.mp hi).1, Option.map_some, hpair,
      Option.map_some]

theorem Tabled.entries_eq {header' : CIMFHeader} (h : Tabled header pre lines)
    (h' : Tabled header' pre lines) {i : Nat} (hi : i < lines.length) :
    header'.mpoHeaders i = header.mpoHeaders i := by
  obtain ⟨before, after, heq, rfl⟩ := split_of_getElem? (List.getElem?_eq_getElem hi)
  rw [heq] at h h'
  rw [h.entry, h'.entry]

/-- Two recordings of one response are the same. -/
theorem Response.Recorded.same (hr : r.Good) (h : r.Recorded one) (h' : r.Recorded two) :
    SameTables one two := by
  obtain ⟨rest, hmemory⟩ := h.memory
  obtain ⟨rest', hmemory'⟩ := h'.memory
  constructor
  · rw [h.line, h'.line]
  · rw [h.line, h'.line, hmemory, hmemory', Status.texts_line hr.status,
      Status.texts_line hr.status]
  · rw [h.table.size, h'.table.size]
  · intro i hi
    exact h.table.entries_eq h'.table (h.table.size ▸ hi)
  · rw [h.table.pairs hmemory, h'.table.pairs hmemory']
  · rw [h.chunkSize, h'.chunkSize]
  · intro i hi
    rw [h.chunkSize] at hi
    obtain ⟨mpoChunks, hchunks⟩ := h.chunks
    obtain ⟨mpoChunks', hchunks'⟩ := h'.chunks
    have hsplit : r.body.chunks =
        r.body.chunks.take i ++ r.body.chunks[i] :: r.body.chunks.drop (i + 1) := by
      rw [← List.drop_eq_getElem_cons hi, List.take_append_drop]
    have hlength : (r.body.chunks.take i).length = i := List.length_take_of_le hi.le
    have hat := fun mpoChunks => enterChunks_at mpoChunks 0 (r.headEnd + 2) (r.body.chunks.take i)
      r.body.chunks[i] (r.body.chunks.drop (i + 1))
    rw [← hsplit, hlength, Nat.zero_add] at hat
    rw [hchunks, hchunks', hat, hat]

end

/-! # One read -/

section

variable {r : Response} {raw : HttpResponse} {fresh : Fresh} {memory rest behind : List UInt8}
  {header : CIMFHeader} {len : Int} {before : List Line}

/-- A status line is recorded. -/
theorem lineParse_status {status : Status} (h : status.Good)
    (hlen : (status.text.length : Int) ≤ len) :
    lineParse (status.text ++ rest) 0 len 0 =
      ((status.text.length : Int), status.line, status.parsed ++ rest) := by
  have hlen' : (status.text.length : Int) ≤ len + 1 := by omega
  have htext : status.text ++ rest = status.version ++ ascii ' ' :: (status.code ++ ascii ' ' ::
      (status.reason ++ cr :: (lf :: rest))) := by simp [Status.text]
  have hparsed : status.parsed ++ rest = status.version ++ 0 :: (status.code ++ 0 ::
      (status.reason ++ 0 :: (lf :: rest))) := by simp [Status.parsed]
  rw [htext, hparsed, lineParse_text h hlen']

/-- What header lines begin with. -/
theorem exists_first_lines {lines : List Line} (hlines : ∀ line ∈ lines, line.Good)
    (hne : lines ≠ []) : ∃ c tail, lines.flatMap Line.text = c :: tail ∧
      c ≠ 0 ∧ c ≠ cr ∧ c ≠ lf := by
  obtain ⟨line, after, rfl⟩ := List.exists_cons_of_ne_nil hne
  obtain ⟨c, name, hname, hc⟩ := (hlines line List.mem_cons_self).exists_first
  have hfirst : (line :: after).flatMap Line.text = c :: (name ++ ascii ':' :: (line.gap ++
      (line.value ++ [cr, lf])) ++ after.flatMap Line.text) := by
    rw [List.flatMap_cons, Line.text, hname]
    rfl
  exact ⟨c, _, hfirst, hc⟩

namespace Response

/-- The header of a new object, when some lines have been recorded. -/
def recorded (r : Response) (raw : HttpResponse) (before : List Line) : CIMFHeader :=
  { raw.begun with
    mpoHeaders := enter raw.begun.mpoHeaders 0 r.status.parsed.length before
    miHeaderSize := before.length }

theorem tabled_recorded (r : Response) (raw : HttpResponse) (before : List Line) :
    Tabled (r.recorded raw before) r.status.parsed before :=
  ⟨rfl, rfl, _, rfl⟩

/-- The lines are recorded up to where the loop stops. -/
theorem parseLines_before {memory' : List UInt8} {p : Nat} (hbefore : ∀ line ∈ before, line.Good)
    (hroom : before.length ≤ keyvalBufferSize)
    (hstart : skipCrlf (r.status.parsed ++ (before.flatMap Line.text ++ rest))
      (some r.status.text.length) (len - r.status.text.length) = some r.status.text.length)
    (hlen : (r.status.text.length : Int) + (before.flatMap Line.text).length ≤ len)
    (hstop : ∀ fuel header nkv, headerLoop fresh 0 len (fuel + 1) header
      (r.status.parsed ++ (before.flatMap Line.parsed ++ rest))
      (r.status.text.length + (before.flatMap Line.text).length) nkv = (header, memory', p, nkv)) :
    raw.begun.parseLines fresh (r.status.parsed ++ (before.flatMap Line.text ++ rest)) 0 len
      r.status.text.length = some (r.recorded raw before, memory', p) := by
  have hcount := length_le_length_flatMap (f := Line.text) (by simp [Line.text]) before
  have hlength := r.status.length_parsed
  have hfuel : len.toNat + 1 = len.toNat - before.length + 1 + before.length := by omega
  have hloop : headerLoop fresh 0 len (len.toNat + 1) raw.begun
      (r.status.parsed ++ (before.flatMap Line.text ++ rest)) r.status.text.length 0 =
        ({ raw.begun with mpoHeaders := enter raw.begun.mpoHeaders 0 r.status.parsed.length before },
          memory', p, before.length) := by
    rw [hfuel, ← hlength, headerLoop_lines hbefore (Nat.zero_le _)
      (by simpa [HttpResponse.begun, CIMFHeader.init] using hroom) (by omega), hlength, hstop,
      Nat.zero_add, Nat.sub_zero]
  refine (parseLines_some rfl ?_ hloop).trans ?_
  · rw [Nat.zero_add]
    exact hstart
  · rfl

/-- The memory of the block, when all header lines have been recorded. -/
def parsedHead (r : Response) (rest : List UInt8) : List UInt8 :=
  r.status.parsed ++ (r.lines.flatMap Line.parsed ++ rest)

theorem drop_parsedHead (r : Response) (rest : List UInt8) :
    (r.parsedHead rest).drop r.headEnd = rest := by
  have hlength : r.headEnd = (r.status.parsed ++ r.lines.flatMap Line.parsed).length := by
    rw [List.length_append, HTTPClient.length_parsed, Status.length_parsed, headEnd]
  rw [parsedHead, ← List.append_assoc, hlength, List.drop_left]

/-- Behind the empty line. -/
theorem drop_parsedHead_body (r : Response) (rest : List UInt8) :
    (r.parsedHead (cr :: lf :: rest)).drop (r.headEnd + 2) = rest := by
  rw [← List.drop_drop, drop_parsedHead]
  rfl

/-- Memory that begins with the parsed header. -/
theorem eq_parsedHead {memory' : List UInt8}
    (h : memory'.take (r.headEnd + 2) = (r.parsedHead (cr :: lf :: rest)).take (r.headEnd + 2)) :
    memory' = r.parsedHead (cr :: lf :: memory'.drop (r.headEnd + 2)) := by
  have hlength : (r.status.parsed ++ (r.lines.flatMap Line.parsed ++ [cr, lf])).length =
      r.headEnd + 2 := by
    simp only [List.length_append, HTTPClient.length_parsed, Status.length_parsed, headEnd,
      List.length_cons, List.length_nil]
    omega
  have hsplit : ∀ rest, r.parsedHead (cr :: lf :: rest) =
      (r.status.parsed ++ (r.lines.flatMap Line.parsed ++ [cr, lf])) ++ rest := by
    simp [parsedHead]
  rw [hsplit, ← hlength, List.take_left, hlength] at h
  rw [hsplit, ← h, List.take_append_drop]

/-- The body is recorded. -/
theorem parseBody_recorded (hr : r.Good) (hfits : r.Fits)
    (htable : Tabled header r.status.parsed r.lines) (hsize : header.miChunkSize = 0)
    (hcap : header.miCapChunkSize = keyvalBufferSize) (fresh : Fresh) (behind : List UInt8)
    (offs : Nat) : ∃ ret header' memory',
      header.parseBody fresh (r.parsedHead (cr :: lf :: (r.body.text ++ behind))) 0 r.text.length
        offs r.headEnd = some (ret, header', memory') ∧
      r.Recorded (r.status.line, header', memory') := by
  have htext := r.length_text
  have hroom := hfits.chunks
  rw [← hcap] at hroom
  cases hbody : r.body with
  | plain bytes =>
    refine ⟨_, _, _, htable.parseBody_plain rfl (hr.plain bytes hbody), rfl, htable, ⟨_, rfl⟩, ?_,
      header.mpoChunks, ?_⟩
    · rw [hsize, hbody]
      rfl
    · rw [hbody]
      rfl
  | chunked text =>
    obtain ⟨hannounced, hgood⟩ := hr.chunked text hbody
    rw [hbody] at hroom htext
    have hlen : (r.headEnd : Int) + 2 + text.text.length ≤ r.text.length := by
      rw [htext]
      exact le_rfl
    obtain ⟨ret, memory', hparse, htake⟩ := parseChunked_text hgood hsize hroom fresh
      (drop_parsedHead r (cr :: lf :: (text.text ++ behind))) hlen
    have hmemory := eq_parsedHead htake
    refine ⟨_, _, memory', htable.parseBody_announced rfl hannounced |>.trans
      (congrArg (Option.map _) hparse), rfl, ⟨htable.size, htable.data, htable.entries⟩,
      ⟨_, hmemory⟩, ?_, header.mpoChunks, ?_⟩
    · rw [hbody]
      rfl
    · rw [hbody]
      rfl

theorem Good.exists_first (hr : r.Good) : ∃ c tail, r.lines.flatMap Line.text = c :: tail ∧
    c ≠ 0 ∧ c ≠ cr ∧ c ≠ lf :=
  exists_first_lines hr.lines hr.lines_ne_nil

theorem skipCrlf_first {c : UInt8} (hc : c ≠ 0 ∧ c ≠ cr ∧ c ≠ lf)
    (hlen : 2 ≤ len - r.status.text.length) :
    skipCrlf (r.status.parsed ++ c :: rest) (some r.status.text.length)
      (len - r.status.text.length) = some r.status.text.length := by
  apply skipCrlf_here _ hlen
  rwa [getD_at r.status.length_parsed.symm]

/-- The header lines of a response that is there up to the empty line. -/
theorem parseLines_head (hr : r.Good) (hfits : r.Fits) (raw : HttpResponse) (fresh : Fresh)
    (rest : List UInt8) (hlen : (r.headEnd : Int) + 2 ≤ len) :
    raw.begun.parseLines fresh
        (r.status.parsed ++ (r.lines.flatMap Line.text ++ cr :: lf :: rest)) 0 len
        r.status.text.length =
      some (r.recorded raw r.lines, r.parsedHead (cr :: lf :: rest), r.headEnd) := by
  rw [headEnd] at hlen
  push_cast at hlen
  obtain ⟨c, tail, hfirst, hc⟩ := hr.exists_first
  apply parseLines_before hr.lines hfits.lines
  · rw [hfirst, List.cons_append]
    exact skipCrlf_first hc (by omega)
  · omega
  · intro fuel header nkv
    apply headerLoop_empty (List.append_assoc ..).symm
    rw [List.length_append, HTTPClient.length_parsed, Status.length_parsed]

/-- A response that is read at once is recorded. -/
theorem receive_recorded (hr : r.Good) (hfits : r.Fits) (raw : HttpResponse) (fresh : Fresh)
    (memory : List UInt8) : ∃ t,
      (receive raw fresh ⟨none, .init memory⟩ r.text).map tables = some t ∧ r.Recorded t := by
  have hlength := r.length_text
  have hline : lineParse (r.text ++ memory.drop r.text.length) 0 r.text.length 0 =
      ((r.status.text.length : Int), r.status.line, r.status.parsed ++
        (r.lines.flatMap Line.text ++ cr :: lf :: (r.body.text ++ memory.drop r.text.length))) := by
    have hle : (r.status.text.length : Int) ≤ r.text.length := by
      rw [hlength, headEnd]
      omega
    rw [← lineParse_status hr.status hle]
    simp [text]
  obtain ⟨ret, header, memory', hbody, hrecorded⟩ := parseBody_recorded hr hfits
    (r.tabled_recorded raw r.lines) rfl rfl fresh (memory.drop r.text.length) r.status.text.length
  refine ⟨_, ?_, hrecorded⟩
  rw [receive_tables hline, parseFrom, parseLines_head hr hfits raw fresh _ (by omega)]
  simp only [hbody, Option.map_some]

end Response

end

end HTTPClient
