-- SUMMARY: A response in two reads, the first of which ends in a body in chunks.
import NetworkEtc.HTTPClient.SegmentedBody

/-!
# A read that ends in the chunks

The parser goes back by the length of the status line before it goes on.
-/

namespace HTTPClient

open Library Library.Printf Netfram CIMFHeader CHttpHandler

theorem Status.Good.le_length {status : Status} (h : status.Good) : 7 ≤ status.text.length := by
  have hlength := status.length_text
  have hpos : ∀ {text : List UInt8}, IsVisible text → 0 < text.length := by
    rintro text ⟨c, hc, -⟩
    exact List.length_pos_of_mem (List.mem_of_mem_head? hc)
  have hversion := hpos h.version_visible
  have hcode := hpos h.code_visible
  have hreason := hpos h.reason_visible
  omega

/-- The chunk, once it has been parsed. -/
def ChunkText.parsed (chunk : ChunkText) : List UInt8 :=
  chunk.size ++ cr :: lf :: (chunk.data ++ [0, lf])

/-- What stands behind the chunks in front of `rest`. -/
def ChunkedText.behind (text : ChunkedText) (rest : List ChunkText) : List UInt8 :=
  rest.flatMap ChunkText.text ++ (text.last ++ cr :: lf :: text.trailer)

/-- The size line in front of `rest`. -/
def ChunkedText.next (text : ChunkedText) : List ChunkText → List UInt8
  | [] => text.last
  | chunk :: _ => chunk.size

/-- It begins with a size. -/
theorem ChunkedText.Good.behind {text : ChunkedText} (h : text.Good) {rest : List ChunkText}
    (hrest : ∀ chunk ∈ rest, chunk ∈ text.chunks) : IsSize (text.next rest) ∧
      ∃ tail, text.behind rest = text.next rest ++ cr :: lf :: tail := by
  cases rest with
  | nil => exact ⟨h.last, text.trailer, rfl⟩
  | cons chunk rest =>
    refine ⟨(h.chunks chunk (hrest chunk List.mem_cons_self)).size, chunk.data ++ cr :: lf ::
      text.behind rest, ?_⟩
    simp [ChunkedText.behind, ChunkedText.next, ChunkText.text]

theorem ChunkText.length_parsed (chunk : ChunkText) : chunk.parsed.length = chunk.text.length := by
  simp [parsed, text]

theorem length_parsed_chunks (chunks : List ChunkText) :
    (chunks.flatMap ChunkText.parsed).length = (chunks.flatMap ChunkText.text).length := by
  rw [List.length_flatMap, List.length_flatMap]
  congr 1
  exact List.map_congr_left fun chunk _ => chunk.length_parsed

namespace CIMFHeader

variable {header header' : CIMFHeader} {fresh : Fresh} {memory memory' pre rest : List UInt8}
  {fuel nChunk p : Nat} {len ret : Int}

/-- Without room for two bytes, or with nothing but line ends, the loop stops. -/
theorem chunkLoop_short (hskip : skipCrlf memory (some p) (len - p) = none) :
    chunkLoop fresh 0 len (fuel + 1) header memory p nChunk =
      some ((p : Int), { header with miChunkSize := nChunk }, memory) := by
  rw [chunkLoop]
  simp only [Int.natCast_zero, sub_zero, hskip]

/-- The end of a chunk becomes a zero. -/
theorem set_chunk (pre rest : List UInt8) (chunk : ChunkText) :
    (pre ++ (chunk.text ++ rest)).set (pre.length + chunk.text.length - 2) 0 =
      pre ++ (chunk.parsed ++ rest) := by
  have hsplit : ∀ c : UInt8, pre ++ (chunk.size ++ cr :: lf :: (chunk.data ++ [c, lf]) ++ rest) =
      (pre ++ (chunk.size ++ cr :: lf :: chunk.data)) ++ c :: lf :: rest := by simp
  have hlength := chunk.length_text
  rw [ChunkText.text, hsplit, set_at, ← hsplit, ChunkText.parsed]
  simp only [List.length_append, List.length_cons, List.length_nil]
  omega

/-- Chunks that are there as a whole are recorded. -/
theorem chunkLoop_texts {chunks : List ChunkText} (header : CIMFHeader) (fresh : Fresh)
    (fuel nChunk : Nat) (pre rest : List UInt8) (hchunks : ∀ chunk ∈ chunks, chunk.Good)
    (hroom : nChunk + chunks.length ≤ header.miCapChunkSize)
    (hlen : (pre.length : Int) + (chunks.flatMap ChunkText.text).length ≤ len) :
    chunkLoop fresh 0 len (fuel + chunks.length) header
        (pre ++ (chunks.flatMap ChunkText.text ++ rest)) pre.length nChunk =
      chunkLoop fresh 0 len fuel
        { header with mpoChunks := enterChunks header.mpoChunks nChunk pre.length chunks }
        (pre ++ (chunks.flatMap ChunkText.parsed ++ rest))
        (pre.length + (chunks.flatMap ChunkText.text).length) (nChunk + chunks.length) := by
  induction chunks generalizing header nChunk pre with
  | nil => rfl
  | cons chunk chunks ih =>
    have hchunk := hchunks chunk List.mem_cons_self
    have hlength := chunk.length_text
    simp only [List.flatMap_cons, List.length_append, List.length_cons, List.append_assoc]
      at hroom hlen ⊢
    have hdrop : (pre ++ (chunk.text ++ (chunks.flatMap ChunkText.text ++ rest))).drop pre.length =
        chunk.size ++ cr :: (lf :: (chunk.data ++ cr :: lf :: (chunks.flatMap ChunkText.text ++
          rest))) := by
      rw [List.drop_left]
      simp [ChunkText.text]
    have hpre : pre ++ (chunk.parsed ++ (chunks.flatMap ChunkText.text ++ rest)) =
        (pre ++ chunk.parsed) ++ (chunks.flatMap ChunkText.text ++ rest) := by simp
    have hend : pre.length + chunk.text.length = (pre ++ chunk.parsed).length := by
      rw [List.length_append, chunk.length_parsed]
    rw [← Nat.add_assoc, chunkLoop_chunk hchunk (nextChunk_text hchunk hdrop (by omega)) (by omega),
      set_chunk, hpre, hend, ih _ _ _ (fun c hc => hchunks c (List.mem_cons_of_mem _ hc))
        (by simp only; omega) (by rw [← hend]; omega), ← hend]
    simp only [enterChunks, List.append_assoc, Nat.add_assoc, Nat.add_comm 1]

/-- A size line of zero ends the loop, whatever stops the scanner behind the digits. -/
theorem chunkLoop_ends {size : List UInt8} (header : CIMFHeader) (fresh : Fresh) (fuel nChunk : Nat)
    (hdigits : ∀ c ∈ size, isHexDigit c = true) (hlength : size.length ≤ 9)
    (hvalue : hexValue size = 0) (hdrop : memory.drop p = size ++ rest)
    (hskip : skipCrlf memory (some p) (len - p) = some p)
    (hseek : seekCrlf memory (some p) (len - p) = some (p + size.length)) :
    ∃ ret, chunkLoop fresh 0 len (fuel + 1) header memory p nChunk =
      some (ret, { header with meChunkFinished := .chunkd, miChunkSize := nChunk }, memory) := by
  rw [chunkLoop]
  simp only [Int.natCast_zero, sub_zero, hskip, hseek, hdrop, Nat.add_sub_cancel_left,
    List.take_left, if_neg (Nat.not_lt.mpr hlength), hex2Int_eq hdigits, hvalue]
  exact ⟨_, rfl⟩

/-- The digits in front of others are no larger a number. -/
theorem hexValue_append_le (a b : List UInt8) : hexValue a ≤ hexValue (a ++ b) := by
  have hfold : ∀ m, m ≤ b.foldl (fun n c => 16 * n + (hexTable c).getD 0) m := by
    induction b with
    | nil => exact fun m => le_rfl
    | cons c b ih =>
      intro m
      rw [List.foldl_cons]
      exact le_trans (by omega) (ih (16 * m + (hexTable c).getD 0))
  rw [hexValue, hexValue, List.foldl_append]
  exact hfold _

/-- What is true of an entry stays true of it, whether it is kept or lost. -/
theorem chunkLoop_keeps {Q : Chunk → Prop} {i : Nat} (hfresh : ∀ n, Q (fresh.chunks n i))
    (hi : i < nChunk) (h : Q (header.mpoChunks i))
    (hloop : chunkLoop fresh 0 len fuel header memory p nChunk = some (ret, header', memory')) :
    nChunk ≤ header'.miChunkSize ∧ Q (header'.mpoChunks i) := by
  induction fuel generalizing header memory p nChunk with
  | zero => exact absurd hloop (by simp [chunkLoop])
  | succ fuel ih =>
    cases hnext : nextChunk memory len p with
    | none =>
      rw [chunkLoop_none hnext] at hloop
      cases hloop
    | some next =>
      cases next with
      | none =>
        obtain ⟨ret', meChunkFinished, hlast⟩ : ∃ ret meChunkFinished,
            chunkLoop fresh 0 len (fuel + 1) header memory p nChunk =
              some (ret, { header with meChunkFinished, miChunkSize := nChunk }, memory) :=
          chunkLoop_last hnext
        rw [hlast] at hloop
        cases hloop
        exact ⟨le_rfl, h⟩
      | some chunk =>
        rw [chunkLoop_record hnext] at hloop
        split at hloop
        · cases hloop
        · have hkept :
              Q (Function.update (header.getChunks fresh nChunk).mpoChunks nChunk chunk i) := by
            rw [Function.update_of_ne hi.ne, getChunks]
            split
            · exact h
            · simp only
              split
              · exact h
              · exact hfresh _
          obtain ⟨hle, hQ⟩ := ih (Nat.lt_succ_of_lt hi) hkept hloop
          exact ⟨Nat.le_of_succ_le hle, hQ⟩

end CIMFHeader

namespace Response

variable {r : Response} {raw : HttpResponse} {fresh : Fresh} {memory : List UInt8} {k : Nat}

/-- The memory of the block, when the header lines and these chunks have been parsed. -/
def afterChunks (r : Response) (chunks : List ChunkText) (behind : List UInt8) : List UInt8 :=
  r.parsedHead (cr :: lf :: (chunks.flatMap ChunkText.parsed ++ behind))

/-- The header, when these chunks have been recorded and others may follow. -/
def chunkHeader (r : Response) (raw : HttpResponse) (chunks : List ChunkText) : CIMFHeader :=
  { r.recorded raw r.lines with
    meChunkFinished := .chunk
    miChunkSize := chunks.length
    mpoChunks := enterChunks raw.begun.mpoChunks 0 (r.headEnd + 2) chunks }

/-- Where the second read is parsed from, when the first one has been parsed up to the end of these
chunks: in front of it by as much as the status line is long. -/
def restart (r : Response) (chunks : List ChunkText) : Nat :=
  r.chunksEnd chunks - r.status.text.length

/-- The response in the memory of the block when the second read is parsed, the chunks in front of
`rest` being recorded. -/
def atSecond (r : Response) (text : ChunkedText) (chunks rest : List ChunkText) (k : Nat) :
    List UInt8 := (r.afterChunks chunks (text.behind rest)).take k ++ r.text.drop k

theorem tabled_chunkHeader (r : Response) (raw : HttpResponse) (chunks : List ChunkText) :
    Tabled (r.chunkHeader raw chunks) r.status.parsed r.lines :=
  ⟨rfl, rfl, _, rfl⟩

@[simp] theorem length_afterChunks (r : Response) (chunks : List ChunkText) (behind : List UInt8) :
    (r.afterChunks chunks behind).length = r.chunksEnd chunks + behind.length := by
  rw [afterChunks, length_parsedHead, List.length_cons, List.length_cons, List.length_append,
    length_parsed_chunks, chunksEnd]
  omega

theorem afterChunks_append (r : Response) (chunks : List ChunkText) (behind rest : List UInt8) :
    r.afterChunks chunks behind ++ rest = r.afterChunks chunks (behind ++ rest) := by
  simp [afterChunks, parsedHead_append]

theorem drop_afterChunks (r : Response) (chunks : List ChunkText) (behind : List UInt8) :
    (r.afterChunks chunks behind).drop (r.chunksEnd chunks) = behind := by
  rw [chunksEnd, ← List.drop_drop, afterChunks, drop_parsedHead_body, ← length_parsed_chunks,
    List.drop_left]

theorem take_afterChunks (r : Response) (chunks : List ChunkText) (behind : List UInt8) (i : Nat) :
    (r.afterChunks chunks behind).take (r.chunksEnd chunks + i) =
      r.afterChunks chunks (behind.take i) := by
  have hfront : ∀ behind, r.afterChunks chunks [] ++ behind = r.afterChunks chunks behind := fun _ => by
    rw [afterChunks_append, List.nil_append]
  have hlength : (r.afterChunks chunks []).length = r.chunksEnd chunks := by
    rw [length_afterChunks, List.length_nil, Nat.add_zero]
  rw [← hfront behind, ← hlength, List.take_length_add_append, hfront]

theorem chunksEnd_append (r : Response) (chunks : List ChunkText) (chunk : ChunkText) :
    r.chunksEnd (chunks ++ [chunk]) = r.chunksEnd chunks + chunk.text.length := by
  simp only [chunksEnd, List.flatMap_append, List.length_append, List.flatMap_cons,
    List.flatMap_nil, List.append_nil, Nat.add_assoc]

theorem le_chunksEnd (r : Response) (chunks : List ChunkText) : r.headEnd + 2 ≤ r.chunksEnd chunks :=
  Nat.le_add_right ..

/-- The end of another chunk becomes a zero. -/
theorem set_afterChunks (r : Response) (chunks : List ChunkText) (chunk : ChunkText)
    (behind : List UInt8) :
    (r.afterChunks chunks (chunk.text ++ behind)).set (r.chunksEnd (chunks ++ [chunk]) - 2) 0 =
      r.afterChunks (chunks ++ [chunk]) behind := by
  have hfront : r.afterChunks chunks [] ++ (chunk.text ++ behind) =
      r.afterChunks chunks (chunk.text ++ behind) := by
    rw [afterChunks_append, List.nil_append]
  have hlength : (r.afterChunks chunks []).length = r.chunksEnd chunks := by
    rw [length_afterChunks, List.length_nil, Nat.add_zero]
  have hset := set_chunk (r.afterChunks chunks []) behind chunk
  rw [hlength, ← chunksEnd_append, hfront] at hset
  rw [hset, afterChunks_append, List.nil_append]
  simp [afterChunks]

section

variable {text : ChunkedText} (hr : r.Good) (hbody : r.body = .chunked text)

include hbody in
theorem drop_chunksEnd {chunks rest : List ChunkText} (hchunks : text.chunks = chunks ++ rest) :
    r.text.drop (r.chunksEnd chunks) = text.behind rest := by
  have hending : r.ending = cr :: lf :: (chunks.flatMap ChunkText.text ++ text.behind rest) := by
    simp [ending, hbody, Body.text, ChunkedText.text, ChunkedText.behind, hchunks]
  have hcut : r.chunksEnd chunks - r.headEnd = (chunks.flatMap ChunkText.text).length + 2 := by
    rw [chunksEnd]
    omega
  rw [drop_text (by rw [chunksEnd]; omega), hcut, hending, List.drop_succ_cons, List.drop_succ_cons,
    List.drop_left]

include hbody in
theorem length_behind {chunks rest : List ChunkText} (hchunks : text.chunks = chunks ++ rest) :
    r.chunksEnd chunks + (text.behind rest).length = r.text.length := by
  have hlength := r.length_text
  have hsplit : r.body.text = chunks.flatMap ChunkText.text ++ text.behind rest := by
    simp [hbody, Body.text, ChunkedText.text, ChunkedText.behind, hchunks]
  rw [hlength, hsplit, List.length_append, chunksEnd]
  omega

include hbody in
/-- The bytes of the first read. -/
theorem front_chunks {chunks rest : List ChunkText}
    (hchunks : text.chunks = chunks ++ rest) {i : Nat} :
    r.front (r.chunksEnd chunks + i) = r.parsedHead (cr :: lf :: (chunks.flatMap ChunkText.text ++
      (text.behind rest).take i)) := by
  have hending : r.ending = cr :: lf :: (chunks.flatMap ChunkText.text ++ text.behind rest) := by
    simp [ending, hbody, Body.text, ChunkedText.text, ChunkedText.behind, hchunks]
  have hcut : r.chunksEnd chunks + i - r.headEnd =
      (chunks.flatMap ChunkText.text).length + i + 2 := by
    rw [chunksEnd]
    omega
  rw [front, hcut, hending, List.take_succ_cons, List.take_succ_cons, List.take_length_add_append]

include hr hbody in
/-- Behind the header lines the loop of `ParseChunked` is next. -/
theorem parseFrom_announced (hroom : r.lines.length ≤ keyvalBufferSize) (hk : r.headEnd < k)
    (hlt : k ≤ r.text.length) (memory : List UInt8) (raw : HttpResponse) (fresh : Fresh) :
    raw.begun.parseFrom fresh (r.started memory k) 0 k r.status.text.length =
      (chunkLoop fresh 0 k (k + 1) (r.chunkHeader raw []) (r.front k ++ memory.drop k) r.headEnd
        0).map fun t => ((if (r.headEnd : Int) < t.1 then t.1 - r.status.text.length else t.1 : Int),
          t.2) := by
  have hmemory : r.front k ++ memory.drop k = r.status.parsed ++ (r.lines.flatMap Line.parsed ++
      (r.ending.take (k - r.headEnd) ++ memory.drop k)) := by
    rw [front, parsedHead_append, parsedHead]
  rw [parseFrom, parseLines_body hr hk hroom hlt]
  simp only
  rw [(r.tabled_recorded raw r.lines).parseBody_announced hmemory (hr.chunked text hbody).1,
    parseChunked, Nat.zero_add, Int.toNat_natCast]
  rfl

/-! ## A read that ends in the empty line -/

include hr hbody in
theorem parseFrom_empty (hfits : r.Fits) (hk : r.headEnd < k) (hle : k ≤ r.headEnd + 2)
    (memory : List UInt8) (raw : HttpResponse) (fresh : Fresh) :
    raw.begun.parseFrom fresh (r.started memory k) 0 k r.status.text.length =
      some ((r.headEnd : Int), r.chunkHeader raw [], r.front k ++ memory.drop k) := by
  have hlength := r.length_text
  have hskip : skipCrlf (r.front k ++ memory.drop k) (some r.headEnd) (k - r.headEnd) = none := by
    rcases Nat.lt_or_ge k (r.headEnd + 2) with hlt | hge
    · exact scanFrom_short (by omega)
    · -- both bytes of the empty line are passed over, and no other is there
      obtain rfl : k = r.headEnd + 2 := by omega
      apply scanFrom_eq_none
      intro q hq hlt _
      obtain ⟨i, rfl⟩ := Nat.exists_eq_add_of_le hq
      rw [front, parsedHead_append, getD_parsedHead, Nat.add_sub_cancel_left]
      have hcases : i = 0 ∨ i = 1 := by omega
      rcases hcases with rfl | rfl
      · exact decide_eq_true (Or.inl rfl)
      · exact decide_eq_true (Or.inr rfl)
  rw [parseFrom_announced hr hbody hfits.lines hk (by omega), chunkLoop_short hskip, Option.map_some]
  simp only [lt_irrefl, if_false]
  rfl

theorem chunkHeader_parseFrom (r : Response) (raw : HttpResponse) (chunks : List ChunkText)
    (fresh : Fresh) (memory : List UInt8) (len : Int) (offs : Nat) :
    (r.chunkHeader raw chunks).parseFrom fresh memory 0 len offs =
      (r.chunkHeader raw chunks).parseBody fresh memory 0 len offs offs := by
  have hstate : (r.chunkHeader raw chunks).meChunkFinished ≠ .header := State.noConfusion
  rw [parseFrom, parseLines, if_neg hstate, Nat.zero_add]

/-- The tables when nothing but the header lines has been recorded are those of a response without
chunks. -/
theorem recorded_chunkHeader (hchunks : r.body.chunks = []) (raw : HttpResponse)
    (rest : List UInt8) : r.Recorded (r.status.line, r.chunkHeader raw [], r.parsedHead rest) := by
  refine ⟨rfl, r.tabled_chunkHeader raw [], ⟨rest, rfl⟩, ?_, raw.begun.mpoChunks, ?_⟩
  · rw [hchunks]
    rfl
  · rw [hchunks]
    rfl

include hr hbody in
theorem resumed_empty (hfits : r.Fits) (hk : r.headEnd < k) (hle : k ≤ r.headEnd + 2)
    (hend : k = r.headEnd + 1 → text.chunks = [] ∧ 0 < r.contentEnd r.headEnd)
    (memory : List UInt8) (raw : HttpResponse) (fresh : Fresh) : r.Resumed memory k raw fresh := by
  have hlt := r.length_text
  have hstatus : r.status.text.length ≤ r.headEnd := Nat.le_add_right ..
  have hpos := r.status.length_text
  have hlength := length_front (r := r) hk.le (by omega)
  have hheader := parseFrom_empty hr hbody hfits hk hle memory raw fresh
  have hstore : store (r.front k ++ memory.drop k) k (r.text.drop k) =
      r.parsedHead (r.ending ++ memory.drop r.text.length) := by
    rw [store_second hlength (by omega), front_append hk.le]
  by_cases hends : LooksEnded (r.front k ++ memory.drop k) r.headEnd
  · obtain ⟨hchunks, hpositive⟩ := hend (looksEnded_front hk (by omega) hends)
    have hcontent := tables_content hr (by omega) (by omega) hheader rfl hk hends
    rw [hstore, front, parsedHead_append, parseContent_fst hr (r.tabled_chunkHeader raw []),
      if_pos hpositive] at hcontent
    exact ⟨_, hcontent, recorded_chunkHeader (by rw [hbody]; exact hchunks) raw _⟩
  · have hkept := tables_kept hr (by omega) (by omega) hheader rfl rfl (by omega) hk hends
    obtain ⟨ret, header, memory', hbody', hrecorded⟩ := parseBody_recorded hr hfits
      (r.tabled_chunkHeader raw []) rfl rfl fresh (memory.drop r.text.length) r.headEnd
    rw [hstore, chunkHeader_parseFrom, ending, List.cons_append, List.cons_append, hbody',
      Option.map_some] at hkept
    exact ⟨_, hkept, hrecorded⟩

include hr hbody in
/-- What a cut within the empty line asks for. -/
theorem Segmented.empty (h : r.Segmented (r.headEnd + 1)) (hfits : r.Fits) :
    text.chunks = [] ∧ 0 < r.contentEnd r.headEnd := by
  have hlt := r.length_text
  have hstatus : r.status.text.length ≤ r.headEnd := Nat.le_add_right ..
  have hlength := length_front (r := r) (Nat.le_succ r.headEnd) (by omega)
  obtain ⟨two, htwo, -, hsize, -⟩ := h.exists_two hr hfits (r.length_marked r.headEnd)
    HttpResponse.zeros Fresh.zeros
  have hends := looksEnded_behind hlength le_rfl (r.looksEnded_marked r.headEnd)
  have hheader := parseFrom_empty hr hbody hfits (Nat.lt_succ_self r.headEnd) (by omega)
    (r.marked r.headEnd) HttpResponse.zeros Fresh.zeros
  have hcontent := tables_content hr (by omega) (by omega) hheader rfl (Nat.lt_succ_self _) hends
  rw [front, parsedHead_append, parseContent_fst hr (r.tabled_chunkHeader _ []), htwo] at hcontent
  split at hcontent
  · next hpositive =>
    cases hcontent
    rw [hbody] at hsize
    exact ⟨List.length_eq_zero_iff.mp hsize.symm, hpositive⟩
  · cases hcontent

/-! ## A read that ends in the body -/

include hr hbody in
theorem parseFrom_chunks (hroom : r.lines.length ≤ keyvalBufferSize) (hk : r.headEnd + 2 < k)
    (hlt : k ≤ r.text.length) (memory : List UInt8) (raw : HttpResponse) (fresh : Fresh) :
    raw.begun.parseFrom fresh (r.started memory k) 0 k r.status.text.length =
      (chunkLoop fresh 0 k (k + 1) (r.chunkHeader raw []) (r.front k ++ memory.drop k)
        (r.headEnd + 2) 0).map fun t =>
          ((if (r.headEnd : Int) < t.1 then t.1 - r.status.text.length else t.1 : Int), t.2) := by
  obtain ⟨c, rest, hcons, hdigit⟩ := (hr.chunked text hbody).2.exists_cons
  have hdrop : (r.front k ++ memory.drop k).drop r.headEnd =
      cr :: lf :: c :: (rest.take (k - r.headEnd - 3) ++ memory.drop k) := by
    have hcut : k - r.headEnd = k - r.headEnd - 3 + 1 + 1 + 1 := by omega
    rw [front, parsedHead_append, drop_parsedHead, ending, hbody, Body.text, hcons, hcut]
    simp only [List.take_succ_cons, List.cons_append]
    rfl
  rw [parseFrom_announced hr hbody hroom (by omega) hlt,
    chunkLoop_skip (skipCrlf_empty hdrop hdigit (by omega))]

/-- The first read has been parsed up to the end of these chunks, and nothing behind it. -/
structure Stops (r : Response) (text : ChunkedText) (memory : List UInt8) (k : Nat)
    (raw : HttpResponse) (fresh : Fresh) (chunks rest : List ChunkText) (memory' : List UInt8) :
    Prop where
  parse : raw.begun.parseFrom fresh (r.started memory k) 0 k r.status.text.length =
    some ((r.restart chunks : Int), r.chunkHeader raw chunks, memory')
  front : memory'.take k = (r.afterChunks chunks (text.behind rest)).take k
  stale : ∀ i, k ≤ i → i + 2 ≠ r.chunksEnd chunks → memory'.getD i 0 = memory.getD i 0
  behind : memory'.drop r.text.length = memory.drop r.text.length

include hbody in
theorem length_le_of_fits {chunks rest : List ChunkText} (hfits : r.Fits)
    (hchunks : text.chunks = chunks ++ rest) : chunks.length ≤ keyvalBufferSize := by
  have hroom := hfits.chunks
  rw [hbody, Body.chunks, hchunks, List.length_append] at hroom
  omega

include hr hbody in
/-- Chunks that are there as a whole are recorded in the first read. -/
theorem parseFrom_whole {chunks rest : List ChunkText} {i : Nat}
    (hlines : r.lines.length ≤ keyvalBufferSize) (hroom : chunks.length ≤ keyvalBufferSize)
    (hchunks : text.chunks = chunks ++ rest) (hk : r.headEnd + 2 < r.chunksEnd chunks + i)
    (hlt : r.chunksEnd chunks + i ≤ r.text.length) (memory : List UInt8) (raw : HttpResponse)
    (fresh : Fresh) : ∃ fuel,
    raw.begun.parseFrom fresh (r.started memory (r.chunksEnd chunks + i)) 0
        (r.chunksEnd chunks + i : Nat) r.status.text.length =
      (chunkLoop fresh 0 (r.chunksEnd chunks + i : Nat) (fuel + 2)
        { r.chunkHeader raw chunks with miChunkSize := 0 }
        (r.afterChunks chunks ((text.behind rest).take i ++ memory.drop (r.chunksEnd chunks + i)))
        (r.chunksEnd chunks) chunks.length).map fun t =>
          ((if (r.headEnd : Int) < t.1 then t.1 - r.status.text.length else t.1 : Int), t.2) := by
  have hgood := (hr.chunked text hbody).2
  have hcount := length_le_length_flatMap (f := ChunkText.text) (by simp [ChunkText.text]) chunks
  have hend : r.chunksEnd chunks = r.headEnd + 2 + (chunks.flatMap ChunkText.text).length := rfl
  have hstatus := r.status.length_text
  have hstart : r.status.text.length ≤ r.headEnd := Nat.le_add_right ..
  have hpre : (r.parsedHead [cr, lf]).length = r.headEnd + 2 := by
    rw [length_parsedHead]
    rfl
  refine ⟨r.chunksEnd chunks + i + 1 - 2 - chunks.length, ?_⟩
  have hfuel : r.chunksEnd chunks + i + 1 =
      r.chunksEnd chunks + i + 1 - 2 - chunks.length + 2 + chunks.length := by omega
  have hmemory : r.front (r.chunksEnd chunks + i) ++ memory.drop (r.chunksEnd chunks + i) =
      r.parsedHead [cr, lf] ++ (chunks.flatMap ChunkText.text ++ ((text.behind rest).take i ++
        memory.drop (r.chunksEnd chunks + i))) := by
    rw [front_chunks hbody hchunks, parsedHead_append, parsedHead_append]
    simp
  have hparsed : r.parsedHead [cr, lf] ++ (chunks.flatMap ChunkText.parsed ++
      ((text.behind rest).take i ++ memory.drop (r.chunksEnd chunks + i))) =
        r.afterChunks chunks ((text.behind rest).take i ++ memory.drop (r.chunksEnd chunks + i)) := by
    rw [parsedHead_append]
    rfl
  rw [parseFrom_chunks hr hbody hlines hk hlt, hmemory]
  generalize (text.behind rest).take i ++ memory.drop (r.chunksEnd chunks + i) = behind at hparsed ⊢
  rw [hfuel, ← hpre, chunkLoop_texts _ _ _ _ _ _ (fun c hc => hgood.chunks c (by simp [hchunks, hc]))
    (by simp only [chunkHeader, recorded, HttpResponse.begun, CIMFHeader.init]; omega)
    (by rw [hpre]; omega), hparsed, hpre, ← hfuel, Nat.zero_add]
  rfl

theorem restart_eq (r : Response) (chunks : List ChunkText) :
    (r.chunksEnd chunks : Int) - r.status.text.length = (r.restart chunks : Int) := by
  have hstart : r.status.text.length ≤ r.headEnd := Nat.le_add_right ..
  have hle := r.le_chunksEnd chunks
  rw [restart]
  omega

include hr hbody in
/-- A first read that ends in the data of a chunk, or in the line end behind it. -/
theorem stops_data {before after : List ChunkText} {chunk : ChunkText} {i : Nat} (hfits : r.Fits)
    (hchunks : text.chunks = before ++ chunk :: after) (hsize : chunk.size.length < i)
    (hi : i ≤ chunk.text.length) (memory : List UInt8) (raw : HttpResponse) (fresh : Fresh) :
    ∃ memory', Stops r text memory (r.chunksEnd before + i) raw fresh (before ++ [chunk]) after
      memory' := by
  have hgood := (hr.chunked text hbody).2
  have hchunk := hgood.chunks chunk (by simp [hchunks])
  have hlength := chunk.length_text
  have hle := r.le_chunksEnd before
  have hend := r.chunksEnd_append before chunk
  have hwhole := length_behind hbody hchunks
  have hbehind : text.behind (chunk :: after) = chunk.text ++ text.behind after := by
    simp [ChunkedText.behind]
  have htake : (text.behind (chunk :: after)).take i = chunk.text.take i := by
    rw [hbehind, List.take_append_of_le_length hi]
  rw [hbehind, List.length_append] at hwhole
  have hroom := hfits.chunks
  rw [hbody, Body.chunks, hchunks, List.length_append, List.length_cons] at hroom
  obtain ⟨fuel, hparse⟩ := parseFrom_whole (i := i) hr hbody hfits.lines
    (length_le_of_fits hbody hfits hchunks) hchunks (by omega) (by omega) memory raw fresh
  rw [htake] at hparse
  generalize hstale : memory.drop (r.chunksEnd before + i) = stale at hparse
  have hdrop : (r.afterChunks before (chunk.text.take i ++ stale)).drop (r.chunksEnd before) =
      chunk.size ++ cr :: ((lf :: (chunk.data ++ [cr, lf])).take (i - chunk.size.length - 1) ++
        stale) := by
    obtain ⟨j, rfl⟩ := Nat.exists_eq_add_of_lt hsize
    rw [drop_afterChunks, ChunkText.text, Nat.add_assoc, List.take_length_add_append,
      List.take_succ_cons, Nat.add_sub_cancel_left]
    simp
  have hshort : skipCrlf ((r.afterChunks before (chunk.text.take i ++ stale)).set
      (r.chunksEnd before + chunk.text.length - 2) 0) (some (r.chunksEnd before + chunk.text.length))
      ((r.chunksEnd before + i : Nat) - (r.chunksEnd before + chunk.text.length : Nat)) = none :=
    scanFrom_short (by omega)
  rw [chunkLoop_chunk hchunk (nextChunk_text hchunk hdrop (by omega))
    (by simp only [chunkHeader, recorded, HttpResponse.begun, CIMFHeader.init]; omega),
    chunkLoop_short hshort, Option.map_some] at hparse
  have hlen : (r.afterChunks before (chunk.text.take i)).length = r.chunksEnd before + i := by
    rw [length_afterChunks, List.length_take_of_le hi]
  have hsplit : r.afterChunks before (chunk.text.take i ++ stale) =
      r.afterChunks before (chunk.text.take i) ++ memory.drop (r.chunksEnd before + i) := by
    rw [afterChunks_append, hstale]
  refine ⟨(r.afterChunks before (chunk.text.take i ++ stale)).set
    (r.chunksEnd before + chunk.text.length - 2) 0, hparse.trans ?_, ?_, fun p hp hne => ?_, ?_⟩
  · rw [if_pos (by omega), ← hend, restart_eq]
    simp only [chunkHeader, List.length_append, List.length_singleton, enterChunks_append,
      Nat.zero_add]
    rfl
  · rw [List.take_set, hsplit, List.take_left' hlen, ← set_afterChunks, List.take_set,
      take_afterChunks, List.take_append_of_le_length hi, hend]
  · rw [List.getD_eq_getElem?_getD, List.getElem?_set_ne (by omega), ← List.getD_eq_getElem?_getD,
      hsplit]
    exact getD_behind hlen hp memory
  · obtain ⟨d, hd⟩ := Nat.exists_eq_add_of_le (show r.chunksEnd before + i ≤ r.text.length by omega)
    rw [List.drop_set_of_lt (by omega), hsplit, hd, ← hlen, List.drop_length_add_append, hlen,
      List.drop_drop]

include hr hbody in
/-- A first read that ends in a size line, if the block does not seem to end that line. -/
theorem stops_size {chunks rest : List ChunkText} {i : Nat} (hfits : r.Fits)
    (hchunks : text.chunks = chunks ++ rest) (hk : r.headEnd + 2 < r.chunksEnd chunks + i)
    (hi : i ≤ (text.next rest).length)
    (hlf : 2 ≤ i → memory.getD (r.chunksEnd chunks + i) 0 ≠ lf) (raw : HttpResponse)
    (fresh : Fresh) : ∃ memory',
      Stops r text memory (r.chunksEnd chunks + i) raw fresh chunks rest memory' := by
  obtain ⟨hsize, tail, hbehind⟩ := (hr.chunked text hbody).2.behind
    (fun c (hc : c ∈ rest) => by simp [hchunks, hc])
  have hwhole := length_behind hbody hchunks
  have hle := r.le_chunksEnd chunks
  rw [hbehind, List.length_append] at hwhole
  have htake : (text.behind rest).take i = (text.next rest).take i := by
    rw [hbehind, List.take_append_of_le_length hi]
  obtain ⟨fuel, hparse⟩ := parseFrom_whole hr hbody hfits.lines
    (length_le_of_fits hbody hfits hchunks) hchunks hk (by omega) memory raw fresh
  rw [htake] at hparse
  have hlen : (r.afterChunks chunks ((text.next rest).take i)).length = r.chunksEnd chunks + i := by
    rw [length_afterChunks, List.length_take_of_le hi]
  have hdrop := r.drop_afterChunks chunks ((text.next rest).take i ++
    memory.drop (r.chunksEnd chunks + i))
  have hskip : 2 ≤ ((r.chunksEnd chunks + i : Nat) : Int) - r.chunksEnd chunks →
      skipCrlf (r.afterChunks chunks ((text.next rest).take i ++
        memory.drop (r.chunksEnd chunks + i))) (some (r.chunksEnd chunks))
        ((r.chunksEnd chunks + i : Nat) - r.chunksEnd chunks) = some (r.chunksEnd chunks) := by
    intro hle
    have hprefix : IsSize ((text.next rest).take i) := by
      refine ⟨?_, fun c hc => hsize.digits c (List.mem_of_mem_take hc), ?_⟩
      · rw [← List.length_pos_iff_ne_nil, List.length_take_of_le hi]
        omega
      · exact (List.length_take_le' i _).trans hsize.length
    exact skipCrlf_size hprefix hdrop hle
  have hseek : seekCrlf (r.afterChunks chunks ((text.next rest).take i ++
      memory.drop (r.chunksEnd chunks + i))) (some (r.chunksEnd chunks))
      ((r.chunksEnd chunks + i : Nat) - r.chunksEnd chunks) = none := by
    rcases Nat.lt_or_ge i 2 with hshort | hlong
    · exact scanFrom_short (by omega)
    · apply scanFrom_eq_none
      intro q hq hlt _
      obtain ⟨t, rfl⟩ := Nat.exists_eq_add_of_le hq
      have hends : ∀ c ∈ (text.next rest).take i, c ≠ cr ∧ c ≠ lf := fun c hc =>
        have hdigit := hsize.digits c (List.mem_of_mem_take hc)
        ⟨isHexDigit_ne hdigit rfl, isHexDigit_ne hdigit rfl⟩
      have hbehind' : (memory.drop (r.chunksEnd chunks + i)).getD 0 0 ≠ lf := by
        rw [getD_drop]
        exact hlf hlong
      rw [Nat.add_assoc, ← getD_drop, ← getD_drop, hdrop]
      exact decide_eq_true (not_ended hends hbehind' (by rw [List.length_take_of_le hi]; omega))
  rw [chunkLoop_stop hskip hseek, Option.map_some] at hparse
  refine ⟨r.afterChunks chunks ((text.next rest).take i ++ memory.drop (r.chunksEnd chunks + i)),
    hparse.trans ?_, ?_, fun p hp _ => ?_, ?_⟩
  · rw [if_pos (by omega), restart_eq]
    rfl
  · rw [← afterChunks_append, List.take_left' hlen, take_afterChunks, htake]
  · rw [← afterChunks_append]
    exact getD_behind hlen hp memory
  · obtain ⟨d, hd⟩ := Nat.exists_eq_add_of_le (show r.chunksEnd chunks + i ≤ r.text.length by omega)
    rw [← afterChunks_append, hd, ← hlen, List.drop_length_add_append, hlen, List.drop_drop]

include hbody in
/-- All of the chunks are recorded. -/
theorem recorded_chunks (raw : HttpResponse) (meChunkFinished : State) (rest : List UInt8) :
    r.Recorded (r.status.line, { r.chunkHeader raw text.chunks with meChunkFinished },
      r.parsedHead rest) := by
  refine ⟨rfl, ⟨rfl, rfl, _, rfl⟩, ⟨rest, rfl⟩, ?_, raw.begun.mpoChunks, ?_⟩
  · rw [hbody]
    rfl
  · rw [hbody]
    rfl

include hr hbody in
/-- The first read is enough if a size line of zero ends in it, or seems to. -/
theorem resumed_last {i : Nat} (hfits : r.Fits) (hk : r.headEnd + 2 < r.chunksEnd text.chunks + i)
    (hlt : r.chunksEnd text.chunks + i ≤ r.text.length)
    (hend : text.last.length < i ∨ i ≤ text.last.length ∧ 2 ≤ i ∧
      memory.getD (r.chunksEnd text.chunks + i) 0 = lf)
    (raw : HttpResponse) (fresh : Fresh) :
    r.Resumed memory (r.chunksEnd text.chunks + i) raw fresh := by
  have hgood := (hr.chunked text hbody).2
  have hle := r.le_chunksEnd text.chunks
  have hstart : r.status.text.length ≤ r.headEnd := Nat.le_add_right ..
  have hchunks : text.chunks = text.chunks ++ [] := (List.append_nil _).symm
  obtain ⟨fuel, hparse⟩ := parseFrom_whole hr hbody hfits.lines
    (length_le_of_fits hbody hfits hchunks) hchunks hk hlt memory raw fresh
  have hdrop := r.drop_afterChunks text.chunks ((text.behind []).take i ++
    memory.drop (r.chunksEnd text.chunks + i))
  -- the digits that are read
  obtain ⟨size, rest, hsize, hvalue, hread, hskip, hseek⟩ : ∃ size rest, IsSize size ∧
      hexValue size = 0 ∧ (text.behind []).take i ++ memory.drop (r.chunksEnd text.chunks + i) =
        size ++ rest ∧
      skipCrlf (r.afterChunks text.chunks (size ++ rest)) (some (r.chunksEnd text.chunks))
        ((r.chunksEnd text.chunks + i : Nat) - r.chunksEnd text.chunks) =
          some (r.chunksEnd text.chunks) ∧
      seekCrlf (r.afterChunks text.chunks (size ++ rest)) (some (r.chunksEnd text.chunks))
        ((r.chunksEnd text.chunks + i : Nat) - r.chunksEnd text.chunks) =
          some (r.chunksEnd text.chunks + size.length) := by
    have hlast := List.length_pos_of_ne_nil hgood.last.ne_nil
    rcases hend with hgt | ⟨hi, htwo, hlf⟩
    · -- the `CR` is there
      obtain ⟨j, rfl⟩ := Nat.exists_eq_add_of_lt hgt
      have hread : (text.behind []).take (text.last.length + j + 1) ++
          memory.drop (r.chunksEnd text.chunks + (text.last.length + j + 1)) =
            text.last ++ cr :: ((lf :: text.trailer).take j ++
              memory.drop (r.chunksEnd text.chunks + (text.last.length + j + 1))) := by
        rw [ChunkedText.behind, List.flatMap_nil, List.nil_append, Nat.add_assoc,
          List.take_length_add_append, List.take_succ_cons, List.append_assoc, List.cons_append]
      have hdrop' := r.drop_afterChunks text.chunks (text.last ++ cr :: ((lf :: text.trailer).take j ++
        memory.drop (r.chunksEnd text.chunks + (text.last.length + j + 1))))
      exact ⟨text.last, _, hgood.last, hgood.value, hread,
        skipCrlf_size hgood.last hdrop' (by omega), seekCrlf_size hgood.last hdrop' (by omega)⟩
    · -- the block has a line feed behind the last digit
      obtain ⟨j, rfl⟩ := Nat.exists_eq_add_one_of_ne_zero (show i ≠ 0 by omega)
      have htake : (text.behind []).take (j + 1) = text.last.take j ++ [text.last[j]] := by
        rw [ChunkedText.behind, List.flatMap_nil, List.nil_append,
          List.take_append_of_le_length hi, List.take_succ_eq_append_getElem hi]
      have hdigit := hgood.last.digits _ (List.getElem_mem hi)
      have hlength : (text.last.take j).length = j := List.length_take_of_le (by omega)
      have hsize : IsSize (text.last.take j) :=
        ⟨by rw [← List.length_pos_iff_ne_nil]; omega,
          fun c hc => hgood.last.digits c (List.mem_of_mem_take hc),
          (List.length_take_le' j _).trans hgood.last.length⟩
      have hvalue : hexValue (text.last.take j) = 0 := by
        have hle := hexValue_append_le (text.last.take j) (text.last.drop j)
        rw [List.take_append_drop, hgood.value] at hle
        exact Nat.le_zero.mp hle
      have hdrop' := r.drop_afterChunks text.chunks (text.last.take j ++ text.last[j] ::
        memory.drop (r.chunksEnd text.chunks + (j + 1)))
      refine ⟨text.last.take j, text.last[j] :: memory.drop (r.chunksEnd text.chunks + (j + 1)), hsize,
        hvalue, by rw [htake, List.append_assoc]; rfl, skipCrlf_size hsize hdrop' (by omega), ?_⟩
      refine scanFrom_append hdrop' (fun x hx => ?_) (isHexDigit_ne hdigit rfl) ?_ (by omega) (by omega)
      · have hx := hsize.digits x hx
        refine ⟨isHexDigit_ne hx rfl, fun y hy => decide_eq_true ⟨isHexDigit_ne hx rfl, ?_⟩⟩
        rcases List.mem_append.mp hy with hy | hy
        · exact isHexDigit_ne (hsize.digits y hy) rfl
        · rw [List.mem_singleton.mp hy]
          exact isHexDigit_ne hdigit rfl
      · have hhead : (memory.drop (r.chunksEnd text.chunks + (j + 1))).headD 0 = lf := by
          rw [← hlf, ← Nat.add_zero (r.chunksEnd text.chunks + (j + 1)), ← getD_drop]
          simp
        rw [hhead]
        exact decide_eq_false fun h => h.2 rfl
  rw [hread] at hparse hdrop
  obtain ⟨ret, hloop⟩ := chunkLoop_ends { r.chunkHeader raw text.chunks with miChunkSize := 0 } fresh
    (fuel + 1) text.chunks.length hsize.digits hsize.length hvalue hdrop hskip hseek
  rw [hloop, Option.map_some] at hparse
  have hfinished := tables_finished hr (by omega) hlt hparse rfl
  exact ⟨_, hfinished, recorded_chunks hbody raw .chunkd _⟩

/-! ## Where the second read is parsed from -/

/-- How a second read is parsed that follows these chunks: from `restart` on, with nothing recorded
that should not be. -/
structure Restarts (r : Response) (text : ChunkedText) (chunks rest : List ChunkText) (k : Nat) :
    Prop where
  /-- The first read is not dropped. -/
  lt : r.restart chunks < k
  /-- The size line is found again, or there is none to be found, and nothing is taken for one. -/
  scanned : ¬ (r.restart chunks + 2 < k ∧
      LooksEnded (r.atSecond text chunks rest k) (r.restart chunks)) →
    rest = [] ∧ nextChunk (r.atSecond text chunks rest k) r.text.length (r.restart chunks) =
        some none ∨
      skipCrlf (r.atSecond text chunks rest k) (some (r.restart chunks))
        (r.text.length - r.restart chunks) = some (r.chunksEnd chunks)
  /-- If the block can make an empty line up there, all of the chunks have been recorded. -/
  content : (r.restart chunks + 1 < k →
      (r.atSecond text chunks rest k).getD (r.restart chunks + 1) 0 = cr) →
    (r.restart chunks + 2 < k →
      (r.atSecond text chunks rest k).getD (r.restart chunks + 2) 0 = lf) →
    rest = [] ∧ 0 < r.contentEnd (r.restart chunks)

theorem getD_of_take {l m : List UInt8} {i : Nat} (h : l.take k = m.take k) (hi : i < k) :
    l.getD i 0 = m.getD i 0 := by
  have hget := congrArg (List.getD · i 0) h
  simpa only [List.getD_eq_getElem?_getD, List.getElem?_take, if_pos hi] using hget

/-- A scanner that is stopped in time does not see what stands behind the memory. -/
theorem scanFrom_behind {least size : Int} {go : UInt8 → UInt8 → Bool} {memory : List UInt8}
    {p i : Nat} (hp : p ≤ i) (hi : i + 1 < memory.length)
    (hstop : ∀ c, go (memory.getD i 0) c = false) (behind : List UInt8) :
    scanFrom least go (memory ++ behind) (some p) size = scanFrom least go memory (some p) size := by
  have hagree : ∀ j ≤ i + 1, (memory ++ behind).getD j 0 = memory.getD j 0 := fun j hj =>
    List.getD_append _ _ _ _ (by omega)
  have hiff : ∀ q, scanFrom least go (memory ++ behind) (some p) size = some q ↔
      scanFrom least go memory (some p) size = some q := by
    intro q
    rw [scanFrom_eq_some_iff, scanFrom_eq_some_iff]
    rcases Nat.lt_or_ge i q with hlt | hle
    · -- neither goes on behind the byte at `i`
      constructor
      · rintro ⟨-, -, -, -, -, hbefore⟩
        have hgo := (hbefore i hp hlt).2
        rw [hagree i (by omega), hstop] at hgo
        cases hgo
      · rintro ⟨-, -, -, -, -, hbefore⟩
        have hgo := (hbefore i hp hlt).2
        rw [hstop] at hgo
        cases hgo
    · have hbytes : (∀ j, p ≤ j → j < q → (memory ++ behind).getD j 0 ≠ 0 ∧
            go ((memory ++ behind).getD j 0) ((memory ++ behind).getD (j + 1) 0) = true) ↔
          ∀ j, p ≤ j → j < q → memory.getD j 0 ≠ 0 ∧
            go (memory.getD j 0) (memory.getD (j + 1) 0) = true := by
        refine forall_congr' fun j => forall_congr' fun _ => forall_congr' fun hj => ?_
        rw [hagree j (by omega), hagree (j + 1) (by omega)]
      rw [hagree q (by omega), hagree (q + 1) (by omega), hbytes]
  cases hscan : scanFrom least go memory (some p) size with
  | some q => exact (hiff q).mpr hscan
  | none =>
    cases hscan' : scanFrom least go (memory ++ behind) (some p) size with
    | none => rfl
    | some q => exact absurd ((hiff q).mp hscan') (by rw [hscan]; exact Option.some_ne_none q |>.symm)

/-- What a round does is not seen from behind a size line. -/
theorem nextChunk_behind {memory : List UInt8} {p start stop : Nat} {len : Int}
    (hp : p ≤ start) (hstart : start ≤ stop) (hstop : stop + 1 < memory.length)
    (hdigit : isHexDigit (memory.getD start 0) = true) (hcr : memory.getD stop 0 = cr)
    (behind : List UInt8) : nextChunk (memory ++ behind) len p = nextChunk memory len p := by
  have hskip : ∀ size, skipCrlf (memory ++ behind) (some p) size = skipCrlf memory (some p) size :=
    fun size => scanFrom_behind hp (by omega) (fun c => decide_eq_false
      (not_or.mpr ⟨isHexDigit_ne hdigit rfl, isHexDigit_ne hdigit rfl⟩)) behind
  unfold nextChunk
  rw [hskip]
  cases hfound : skipCrlf memory (some p) (len - p) with
  | none => rfl
  | some q =>
    have hq : q ≤ start := by
      by_contra hgt
      obtain ⟨-, -, -, -, -, hbefore⟩ := scanFrom_eq_some_iff.mp hfound
      have hgo := of_decide_eq_true (hbefore start hp (by omega)).2
      exact hgo.elim (isHexDigit_ne hdigit rfl) (isHexDigit_ne hdigit rfl)
    have hseek : ∀ size, seekCrlf (memory ++ behind) (some q) size = seekCrlf memory (some q) size :=
      fun size => scanFrom_behind (hq.trans hstart) hstop
        (fun c => decide_eq_false fun h => h.1 hcr) behind
    simp only [hseek]
    cases hend : seekCrlf memory (some q) (len - q) with
    | none => rfl
    | some pTemp =>
      have hpTemp : pTemp ≤ stop := by
        by_contra hgt
        obtain ⟨-, -, -, -, -, hbefore⟩ := scanFrom_eq_some_iff.mp hend
        have hgo := of_decide_eq_true (hbefore stop (hq.trans hstart) (by omega)).2
        exact hgo.1 hcr
      have htake : ((memory ++ behind).drop q).take (pTemp - q) =
          (memory.drop q).take (pTemp - q) := by
        rw [List.drop_append_of_le_length (by omega),
          List.take_append_of_le_length (by rw [List.length_drop]; omega)]
      simp only [htake]

section

variable {chunks rest : List ChunkText} {memory' : List UInt8}

omit hr in
include hbody in
theorem take_atSecond (hchunks : text.chunks = chunks ++ rest) (hlt : k ≤ r.text.length) :
    (r.atSecond text chunks rest k).take k =
      (r.afterChunks chunks (text.behind rest)).take k := by
  have hlength := length_behind hbody hchunks
  rw [atSecond, List.take_left' (List.length_take_of_le (by rw [length_afterChunks]; omega))]

omit hr in
include hbody in
theorem length_atSecond (hchunks : text.chunks = chunks ++ rest) (hlt : k ≤ r.text.length) :
    (r.atSecond text chunks rest k).length = r.text.length := by
  have hlength := length_behind hbody hchunks
  rw [atSecond, List.length_append, List.length_take_of_le (by rw [length_afterChunks]; omega),
    List.length_drop]
  omega

omit hr in
include hbody in
/-- The header lines have been parsed. -/
theorem atSecond_eq (hchunks : text.chunks = chunks ++ rest) (hk : r.headEnd + 2 < k)
    (hlt : k ≤ r.text.length) : ∃ behind, r.atSecond text chunks rest k = r.parsedHead behind := by
  have htake := congrArg (List.take r.headEnd) (take_atSecond hbody hchunks hlt)
  rw [List.take_take, List.take_take, min_eq_left (by omega)] at htake
  exact ⟨_, eq_parsedHead_of_take htake⟩

omit hr in
include hbody in
/-- What stands behind the chunks has not been parsed. -/
theorem drop_atSecond (hchunks : text.chunks = chunks ++ rest) (hlt : k ≤ r.text.length) :
    (r.atSecond text chunks rest k).drop (r.chunksEnd chunks) = text.behind rest := by
  have hlength := length_behind hbody hchunks
  have htext := drop_chunksEnd hbody hchunks
  have hwhole : (r.afterChunks chunks (text.behind rest)).length = r.text.length := by
    rw [length_afterChunks, hlength]
  rcases Nat.lt_or_ge k (r.chunksEnd chunks) with hgt | hle
  · obtain ⟨d, hd⟩ := Nat.exists_eq_add_of_le hgt.le
    have hfront : ((r.afterChunks chunks (text.behind rest)).take k).length = k :=
      List.length_take_of_le (by omega)
    rw [atSecond, hd]
    generalize (r.afterChunks chunks (text.behind rest)).take k = front at hfront
    subst hfront
    rw [List.drop_length_add_append, List.drop_drop, ← hd, htext]
  · obtain ⟨d, rfl⟩ := Nat.exists_eq_add_of_le hle
    have hfront : (r.afterChunks chunks ((text.behind rest).take d)).drop (r.chunksEnd chunks) =
        (text.behind rest).take d := r.drop_afterChunks chunks _
    rw [atSecond, take_afterChunks, List.drop_append_of_le_length
      (by rw [length_afterChunks]; omega), hfront, ← List.drop_drop, htext, List.take_append_drop]

include hr hbody in
/-- The next size line stops the scanners. -/
theorem next_atSecond (hchunks : text.chunks = chunks ++ rest) (hlt : k ≤ r.text.length) :
    isHexDigit ((r.atSecond text chunks rest k).getD (r.chunksEnd chunks) 0) = true ∧
      (r.atSecond text chunks rest k).getD (r.chunksEnd chunks + (text.next rest).length) 0 = cr ∧
      r.chunksEnd chunks + (text.next rest).length + 1 < (r.atSecond text chunks rest k).length := by
  obtain ⟨hsize, tail, htail⟩ := (hr.chunked text hbody).2.behind
    (fun c (hc : c ∈ rest) => by simp [hchunks, hc])
  have hwhole := length_behind hbody hchunks
  have hget : ∀ i, (r.atSecond text chunks rest k).getD (r.chunksEnd chunks + i) 0 =
      (text.next rest ++ cr :: lf :: tail).getD i 0 := by
    intro i
    rw [← getD_drop, drop_atSecond hbody hchunks hlt, htail]
  rw [htail, List.length_append, List.length_cons, List.length_cons] at hwhole
  refine ⟨?_, ?_, ?_⟩
  · rw [← Nat.add_zero (r.chunksEnd chunks), hget]
    exact hsize.digits _ (getD_append_mem _ (List.length_pos_of_ne_nil hsize.ne_nil))
  · rw [hget]
    exact getD_at rfl
  · rw [length_atSecond hbody hchunks hlt]
    omega

namespace Stops

variable (h : Stops r text memory k raw fresh chunks rest memory')
  (hchunks : text.chunks = chunks ++ rest) (hk : r.headEnd + 2 < k) (hlt : k ≤ r.text.length)

include h

/-- The second read makes the response whole. -/
theorem store (hlt : k ≤ r.text.length) : store memory' k (r.text.drop k) =
    r.atSecond text chunks rest k ++ memory.drop r.text.length := by
  have hsize : k + (r.text.drop k).length = r.text.length := by
    rw [List.length_drop]
    omega
  rw [Library.Printf.store, hsize, h.front, h.behind, atSecond]

include hbody hchunks hlt

theorem getD_eq {i : Nat} (hi : i < k) :
    memory'.getD i 0 = (r.atSecond text chunks rest k).getD i 0 :=
  getD_of_take (h.front.trans (take_atSecond hbody hchunks hlt).symm) hi

include hr hk

/-- A second read is parsed from `restart` on. -/
theorem kept (hrestart : r.restart chunks < k) (hends : ¬ LooksEnded memory' (r.restart chunks)) :
    (receiveTwo raw fresh memory (r.text.take k) (r.text.drop k)).map tables =
      (chunkLoop fresh 0 r.text.length (r.text.length + 1) (r.chunkHeader raw chunks)
        (r.atSecond text chunks rest k ++ memory.drop r.text.length) (r.restart chunks)
        chunks.length).map fun t => (r.status.line, t.2.1, t.2.2) := by
  have hstart : r.status.text.length ≤ r.headEnd := Nat.le_add_right ..
  have hle := r.le_chunksEnd chunks
  have hpos : 0 < r.restart chunks := by
    rw [restart]
    omega
  obtain ⟨behind, hbehind⟩ := atSecond_eq hbody hchunks hk hlt
  have hmemory : r.atSecond text chunks rest k ++ memory.drop r.text.length =
      r.status.parsed ++ (r.lines.flatMap Line.parsed ++ (behind ++ memory.drop r.text.length)) := by
    rw [hbehind, parsedHead_append, parsedHead]
  rw [tables_kept hr (by omega) hlt h.parse rfl rfl hpos hrestart hends, h.store hlt,
    chunkHeader_parseFrom, (r.tabled_chunkHeader raw chunks).parseBody_announced hmemory
      (hr.chunked text hbody).1, parseChunked, Nat.zero_add, Int.toNat_natCast, Option.map_map]
  rfl

omit hbody hchunks in
/-- A second read is not parsed if the first one seems to have ended the header. -/
theorem content (hrestart : r.restart chunks < k) (hends : LooksEnded memory' (r.restart chunks)) :
    (receiveTwo raw fresh memory (r.text.take k) (r.text.drop k)).map tables =
      if 0 < r.contentEnd (r.restart chunks) then
        some (r.status.line, r.chunkHeader raw chunks,
          r.atSecond text chunks rest k ++ memory.drop r.text.length)
      else none := by
  have hstart : r.status.text.length ≤ r.headEnd := Nat.le_add_right ..
  have htake := congrArg (List.take r.headEnd) h.front
  rw [List.take_take, List.take_take, min_eq_left (by omega)] at htake
  rw [tables_content hr (by omega) hlt h.parse rfl hrestart hends, h.store hlt,
    eq_parsedHead_of_take htake, parseContent_fst hr (r.tabled_chunkHeader raw chunks)]

/-- A response goes on where the size line is found again, or where none is needed. -/
theorem resumed (hfits : r.Fits) (hrestarts : Restarts r text chunks rest k) :
    r.Resumed memory k raw fresh := by
  have hgood := (hr.chunked text hbody).2
  have hlength := length_atSecond hbody hchunks hlt
  have hdrop := drop_atSecond hbody hchunks hlt
  have hstart : r.status.text.length ≤ r.headEnd := Nat.le_add_right ..
  have hle := r.le_chunksEnd chunks
  have hR : r.restart chunks ≤ r.chunksEnd chunks := Nat.sub_le ..
  obtain ⟨behind, hbehind⟩ := atSecond_eq hbody hchunks hk hlt
  have hnone : rest = [] → text.chunks = chunks := fun h => by rw [hchunks, h, List.append_nil]
  by_cases hends : LooksEnded memory' (r.restart chunks)
  · obtain ⟨hnil, hpositive⟩ := hrestarts.content
      (fun hi => (h.getD_eq hbody hchunks hlt hi).symm.trans hends.1)
      (fun hi => (h.getD_eq hbody hchunks hlt hi).symm.trans hends.2)
    have hcontent := h.content hr hk hlt hrestarts.lt hends
    rw [if_pos hpositive, hbehind, parsedHead_append] at hcontent
    have hrecorded := recorded_chunks hbody raw .chunk (behind ++ memory.drop r.text.length)
    rw [hnone hnil] at hrecorded
    exact ⟨_, hcontent, hrecorded⟩
  · have hkept := h.kept hr hbody hchunks hk hlt hrestarts.lt hends
    have hscanned := hrestarts.scanned fun ⟨hi, hM⟩ => hends
      ⟨(h.getD_eq hbody hchunks hlt (by omega)).trans hM.1,
        (h.getD_eq hbody hchunks hlt hi).trans hM.2⟩
    obtain ⟨hdigit, hcr, hstop⟩ := next_atSecond hr hbody hchunks hlt
    rcases hscanned with ⟨hnil, hlast⟩ | hskip
    · have hlast' := (nextChunk_behind hR (Nat.le_add_right ..) hstop hdigit hcr
        (memory.drop r.text.length)).trans hlast
      obtain ⟨ret, meChunkFinished, hloop⟩ : ∃ ret meChunkFinished, chunkLoop fresh 0 r.text.length
          (r.text.length + 1) (r.chunkHeader raw chunks)
          (r.atSecond text chunks rest k ++ memory.drop r.text.length) (r.restart chunks)
          chunks.length = some (ret, { r.chunkHeader raw chunks with meChunkFinished },
            r.atSecond text chunks rest k ++ memory.drop r.text.length) := chunkLoop_last hlast'
      have hrecorded := recorded_chunks hbody raw meChunkFinished
        (behind ++ memory.drop r.text.length)
      rw [hloop, Option.map_some, hbehind, parsedHead_append] at hkept
      rw [hnone hnil] at hrecorded
      exact ⟨_, hkept, hrecorded⟩
    · have hskip' : skipCrlf (r.atSecond text chunks rest k ++ memory.drop r.text.length)
          (some (r.restart chunks)) (r.text.length - r.restart chunks) = some (r.chunksEnd chunks) :=
        (scanFrom_behind hR (by omega)
          (fun c => decide_eq_false (not_or.mpr ⟨isHexDigit_ne hdigit rfl,
            isHexDigit_ne hdigit rfl⟩)) _).trans hskip
      have hbody' : (r.atSecond text chunks rest k ++ memory.drop r.text.length).drop
          (r.chunksEnd chunks) = rest.flatMap ChunkText.text ++ (text.last ++ cr :: (lf ::
            (text.trailer ++ memory.drop r.text.length))) := by
        rw [List.drop_append_of_le_length (by omega), hdrop, ChunkedText.behind]
        simp
      have hroom := hfits.chunks
      rw [hbody, Body.chunks, hchunks, List.length_append] at hroom
      have hcount := length_le_length_flatMap (f := ChunkText.text) (by simp [ChunkText.text]) rest
      have hrest := length_behind hbody hchunks
      rw [ChunkedText.behind, List.length_append, List.length_append, List.length_cons] at hrest
      have hfuel : r.text.length + 1 = r.text.length - rest.length + 1 + rest.length := by omega
      obtain ⟨ret, memory₂, hloop, htake⟩ := chunkLoop_chunks (r.chunkHeader raw chunks) fresh
        (r.text.length - rest.length) chunks.length (fun c hc => hgood.chunks c (by simp [hchunks, hc]))
        hgood.last hgood.value hbody'
        (by simp only [chunkHeader, recorded, HttpResponse.begun, CIMFHeader.init]; omega)
        (show _ < (r.text.length : Int) - r.chunksEnd chunks by omega)
      have hheader : { r.chunkHeader raw chunks with
          meChunkFinished := State.chunkd
          miChunkSize := chunks.length + rest.length
          mpoChunks := enterChunks (r.chunkHeader raw chunks).mpoChunks chunks.length
            (r.chunksEnd chunks) rest } =
          { r.chunkHeader raw text.chunks with meChunkFinished := .chunkd } := by
        rw [hchunks]
        simp only [chunkHeader, enterChunks_append, List.length_append, Nat.zero_add, chunksEnd]
      have htake' := congrArg (List.take r.headEnd) htake
      rw [List.take_take, List.take_take, min_eq_left (by omega), hbehind, parsedHead_append] at htake'
      rw [chunkLoop_skip hskip', hfuel, hloop, hheader, Option.map_some,
        eq_parsedHead_of_take htake'] at hkept
      exact ⟨_, hkept, recorded_chunks hbody raw .chunkd _⟩

end Stops

omit hr in
include hbody in
/-- In front of the next size line a line ends, though its `CR` may be a zero now. -/
theorem ends_atSecond (hchunks : text.chunks = chunks ++ rest) (hlt : k ≤ r.text.length) :
    ((r.atSecond text chunks rest k).getD (r.chunksEnd chunks - 2) 0 = 0 ∨
      (r.atSecond text chunks rest k).getD (r.chunksEnd chunks - 2) 0 = cr) ∧
    (r.atSecond text chunks rest k).getD (r.chunksEnd chunks - 1) 0 = lf := by
  have hle := r.le_chunksEnd chunks
  have hlength := length_behind hbody hchunks
  -- it is so in what has been parsed, and in what has not
  have hparsed : ∃ front c, r.afterChunks chunks (text.behind rest) =
      front ++ c :: lf :: text.behind rest ∧ (c = 0 ∨ c = cr) := by
    rcases List.eq_nil_or_concat chunks with rfl | ⟨before, chunk, rfl⟩
    · exact ⟨r.parsedHead [], cr, by simp [afterChunks, parsedHead_append], Or.inr rfl⟩
    · refine ⟨r.afterChunks before (chunk.size ++ cr :: lf :: chunk.data), 0, ?_, Or.inl rfl⟩
      rw [afterChunks_append, List.concat_eq_append]
      simp [afterChunks, ChunkText.parsed]
  have htext : ∃ front, r.text = front ++ cr :: lf :: text.behind rest := by
    have hwhole : r.text = (r.status.text ++ r.lines.flatMap Line.text) ++ cr :: lf ::
        (chunks.flatMap ChunkText.text ++ text.behind rest) := by
      simp [Response.text, hbody, Body.text, ChunkedText.text, ChunkedText.behind, hchunks]
    rcases List.eq_nil_or_concat chunks with rfl | ⟨before, chunk, rfl⟩
    · exact ⟨_, hwhole⟩
    · refine ⟨(r.status.text ++ r.lines.flatMap Line.text) ++ cr :: lf ::
        (before.flatMap ChunkText.text ++ (chunk.size ++ cr :: lf :: chunk.data)), ?_⟩
      rw [hwhole, List.concat_eq_append]
      simp [ChunkText.text]
  obtain ⟨front, c, hfront, hc⟩ := hparsed
  obtain ⟨front', hfront'⟩ := htext
  have hpos : front.length + 2 = r.chunksEnd chunks := by
    have hsize := congrArg List.length hfront
    rw [length_afterChunks, List.length_append, List.length_cons, List.length_cons] at hsize
    omega
  have hpos' : front'.length + 2 = r.chunksEnd chunks := by
    have hsize := congrArg List.length hfront'
    rw [List.length_append, List.length_cons, List.length_cons] at hsize
    omega
  have hget : ∀ i, (r.atSecond text chunks rest k).getD i 0 =
      (r.afterChunks chunks (text.behind rest)).getD i 0 ∨
      (r.atSecond text chunks rest k).getD i 0 = r.text.getD i 0 := by
    intro i
    rcases Nat.lt_or_ge i k with hi | hi
    · exact Or.inl (getD_of_take (take_atSecond hbody hchunks hlt) hi)
    · refine Or.inr ?_
      obtain ⟨d, rfl⟩ := Nat.exists_eq_add_of_le hi
      rw [← getD_drop r.text, ← getD_drop, atSecond, List.drop_left'
        (List.length_take_of_le (by rw [length_afterChunks]; omega))]
  have hget₂ : ∀ (front : List UInt8) (c : UInt8), front.length + 2 = r.chunksEnd chunks →
      (front ++ c :: lf :: text.behind rest).getD (r.chunksEnd chunks - 2) 0 = c ∧
      (front ++ c :: lf :: text.behind rest).getD (r.chunksEnd chunks - 1) 0 = lf := by
    intro front c hfront
    rw [← hfront]
    exact ⟨getD_append_add front _ 0, getD_append_add front _ 1⟩
  constructor
  · rcases hget (r.chunksEnd chunks - 2) with heq | heq
    · rw [heq, hfront, (hget₂ front c hpos).1]
      exact hc
    · rw [heq, hfront', (hget₂ front' cr hpos').1]
      exact Or.inr rfl
  · rcases hget (r.chunksEnd chunks - 1) with heq | heq
    · rw [heq, hfront, (hget₂ front c hpos).2]
    · rw [heq, hfront', (hget₂ front' cr hpos').2]

omit hr in
include hbody in
/-- A round that records what the next size line asks for has found it. -/
theorem skipCrlf_found (hchunks : text.chunks = chunks ++ rest) (hlt : k ≤ r.text.length)
    {chunk : Chunk} {start : Nat} (hstart : start ≤ r.chunksEnd chunks) {len : Int}
    (hnext : nextChunk (r.atSecond text chunks rest k) len start = some (some chunk))
    (hfound : r.chunksEnd chunks + 2 ≤ chunk.start)
    (hdigit : isHexDigit ((r.atSecond text chunks rest k).getD (r.chunksEnd chunks) 0) = true) :
    skipCrlf (r.atSecond text chunks rest k) (some start) (len - start) =
      some (r.chunksEnd chunks) := by
  have hle := r.le_chunksEnd chunks
  obtain ⟨hcr, hlf⟩ := ends_atSecond hbody hchunks hlt
  generalize r.atSecond text chunks rest k = memory at hnext hdigit hcr hlf ⊢
  rw [nextChunk] at hnext
  cases hskip : skipCrlf memory (some start) (len - start) with
  | none =>
    rw [hskip] at hnext
    cases hnext
  | some a =>
    rw [hskip] at hnext
    simp only at hnext
    cases hseek : seekCrlf memory (some a) (len - a) with
    | none =>
      rw [hseek] at hnext
      cases hnext
    | some pTemp =>
      rw [hseek] at hnext
      simp only at hnext
      split at hnext
      · cases hnext
      · obtain ⟨nBytes, -, hchunk⟩ := Option.map_eq_some_iff.mp hnext
        split at hchunk
        · cases hchunk
        · obtain rfl := Option.some.inj hchunk
          simp only at hfound
          obtain ⟨-, -, -, -, hstop, hbefore⟩ := scanFrom_eq_some_iff.mp hskip
          obtain ⟨-, -, -, -, -, hover⟩ := scanFrom_eq_some_iff.mp hseek
          have hnot : ∀ c : UInt8, memory.getD a 0 = c → c ≠ cr ∧ c ≠ lf := by
            rintro c rfl
            exact not_or.mp (of_decide_eq_false hstop)
          rcases Nat.lt_trichotomy a (r.chunksEnd chunks) with hlt' | rfl | hgt
          · rcases Nat.lt_or_ge a (r.chunksEnd chunks - 1) with hfar | hnear
            · -- the line end in front would have stopped the search
              obtain ⟨hzero, hgo⟩ := hover (r.chunksEnd chunks - 2) (by omega) (by omega)
              exact hcr.elim (fun h => absurd h hzero) fun h => absurd h (of_decide_eq_true hgo).1
            · obtain rfl : a = r.chunksEnd chunks - 1 := by omega
              exact absurd rfl (hnot lf hlf).2
          · rfl
          · have hgo := of_decide_eq_true (hbefore (r.chunksEnd chunks) hstart hgt).2
            exact (hgo.elim (isHexDigit_ne hdigit rfl) (isHexDigit_ne hdigit rfl)).elim

include hr hbody in
/-- What a cut behind the chunks that are recorded asks for. -/
theorem Segmented.restarts (h : r.Segmented k) (hfits : r.Fits)
    (hchunks : text.chunks = chunks ++ rest) (hk : r.headEnd + 2 < k) (hlt : k < r.text.length)
    (hstops : ∀ memory : List UInt8, (r.chunksEnd chunks < k → memory.getD k 0 ≠ lf) →
      ∃ memory', Stops r text memory k HttpResponse.zeros Fresh.zeros chunks rest memory') :
    Restarts r text chunks rest k := by
  have hwhole := length_behind hbody hchunks
  have hstatus := hr.status.le_length
  have hstart : r.status.text.length ≤ r.headEnd := Nat.le_add_right ..
  have hle := r.le_chunksEnd chunks
  have hR : r.restart chunks + r.status.text.length = r.chunksEnd chunks := by
    rw [restart]
    omega
  have hcount : r.body.chunks.length = chunks.length + rest.length := by
    rw [hbody, Body.chunks, hchunks, List.length_append]
  have hzero : r.zeros.getD k 0 = 0 := zeros_getD hlt
  obtain ⟨memory', hzeros⟩ := hstops r.zeros fun _ => by
    rw [hzero]
    decide
  obtain ⟨two, htwo, -, htwosize, hentries⟩ := h.exists_two hr hfits length_zeros HttpResponse.zeros
    Fresh.zeros
  have hrestart : r.restart chunks < k := by
    by_contra hge
    rw [tables_dropped hr (by omega) hlt.le hzeros.parse rfl (Or.inr (by omega))] at htwo
    cases htwo
  refine ⟨hrestart, fun hends => ?_, fun hcr hlf => ?_⟩
  · have hends' : ¬ LooksEnded memory' (r.restart chunks) := by
      intro hboth
      rcases Nat.lt_or_ge (r.restart chunks + 2) k with hi | hi
      · exact hends ⟨hi, (hzeros.getD_eq hbody hchunks hlt.le (by omega)).symm.trans hboth.1,
          (hzeros.getD_eq hbody hchunks hlt.le hi).symm.trans hboth.2⟩
      · have hlf := hboth.2
        rw [hzeros.stale _ hi (by omega), zeros_getD (by omega)] at hlf
        cases hlf
    rw [hzeros.kept hr hbody hchunks hk hlt.le hrestart hends', drop_zeros] at htwo
    obtain ⟨⟨ret, header₂, memory₂⟩, ht, rfl⟩ := Option.map_eq_some_iff.mp htwo
    obtain ⟨hdigit, hcr, hstop⟩ := next_atSecond hr hbody hchunks hlt.le
    have hsame : nextChunk (r.atSecond text chunks rest k ++ [lf]) r.text.length (r.restart chunks) =
        nextChunk (r.atSecond text chunks rest k) r.text.length (r.restart chunks) :=
      nextChunk_behind (by omega) (Nat.le_add_right ..) hstop hdigit hcr [lf]
    cases hnext : nextChunk (r.atSecond text chunks rest k) r.text.length (r.restart chunks) with
    | none =>
      rw [chunkLoop_none (hsame.trans hnext)] at ht
      cases ht
    | some next =>
      cases next with
      | none =>
        obtain ⟨ret, meChunkFinished, hloop⟩ : ∃ ret meChunkFinished, chunkLoop Fresh.zeros 0
            r.text.length (r.text.length + 1) (r.chunkHeader HttpResponse.zeros chunks)
            (r.atSecond text chunks rest k ++ [lf]) (r.restart chunks) chunks.length =
              some (ret, { r.chunkHeader HttpResponse.zeros chunks with meChunkFinished },
                r.atSecond text chunks rest k ++ [lf]) := chunkLoop_last (hsame.trans hnext)
        have hheader : { r.chunkHeader HttpResponse.zeros chunks with meChunkFinished } = header₂ :=
          congrArg (·.2.1) (Option.some.inj (hloop.symm.trans ht))
        have hnil : chunks.length = r.body.chunks.length := by
          rw [← hheader] at htwosize
          exact htwosize
        exact Or.inl ⟨List.length_eq_zero_iff.mp (by omega), rfl⟩
      | some chunk =>
        rw [chunkLoop_record (hsame.trans hnext)] at ht
        split at ht
        · cases ht
        · obtain ⟨hmore, hentry⟩ := chunkLoop_keeps (Q := fun c => c.start = chunk.start ∨ c.start = 0)
            (fun _ => Or.inr rfl) (Nat.lt_succ_self chunks.length)
            (Or.inl (congrArg Chunk.start (Function.update_self ..))) ht
          have hsize : header₂.miChunkSize = r.body.chunks.length := htwosize
          cases hrest : rest with
          | nil =>
            rw [hrest, List.length_nil] at hcount
            omega
          | cons next after =>
            have hat := hentries chunks next after (by rw [hbody, Body.chunks, hchunks, hrest])
            simp only at hat
            rw [hat, ChunkText.entry] at hentry
            simp only at hentry
            rw [← hrest]
            exact Or.inr (skipCrlf_found hbody hchunks hlt.le (by omega) hnext (by omega) hdigit)
  · obtain ⟨memory', hmarked⟩ := hstops (r.marked (r.restart chunks)) fun hbehind => by
      rw [marked_getD (by omega)]
      decide
    have hcr' : memory'.getD (r.restart chunks + 1) 0 = cr := by
      rcases Nat.lt_or_ge (r.restart chunks + 1) k with hi | hi
      · exact (hmarked.getD_eq hbody hchunks hlt.le hi).trans (hcr hi)
      · exact (hmarked.stale _ hi (by omega)).trans (r.looksEnded_marked (r.restart chunks)).1
    have hlf' : memory'.getD (r.restart chunks + 2) 0 = lf := by
      rcases Nat.lt_or_ge (r.restart chunks + 2) k with hi | hi
      · exact (hmarked.getD_eq hbody hchunks hlt.le hi).trans (hlf hi)
      · exact (hmarked.stale _ hi (by omega)).trans (r.looksEnded_marked (r.restart chunks)).2
    obtain ⟨two, htwo, -, htwosize, -⟩ := h.exists_two hr hfits (r.length_marked (r.restart chunks))
      HttpResponse.zeros Fresh.zeros
    rw [hmarked.content hr hk hlt.le hrestart ⟨hcr', hlf'⟩] at htwo
    split at htwo
    · next hpositive =>
      cases htwo
      have hnil : chunks.length = r.body.chunks.length := htwosize
      exact ⟨List.length_eq_zero_iff.mp (by omega), hpositive⟩
    · cases htwo

end

end

end Response

end HTTPClient
