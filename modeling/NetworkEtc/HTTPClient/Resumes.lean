-- SUMMARY: Where a response can be cut in two reads.
import Mathlib.Data.Bool.AllAny
import NetworkEtc.HTTPClient.SegmentedChunks

/-!
# Where a response can be cut

The second read must go on where the first one has ended, and the tables must not grow.
-/

namespace HTTPClient

open Library Library.Printf Netfram CIMFHeader CHttpHandler

namespace Response

variable {r : Response} {raw : HttpResponse} {fresh : Fresh} {memory : List UInt8} {k : Nat}

/-- The first read ends where the second one goes on. -/
inductive Resumes (r : Response) : Nat → Prop where
  /-- In the name of a header line, behind its first byte, no line in front announcing chunks. -/
  | name {before : List Line} {line : Line} {after : List Line} {j : Nat}
      (hlines : r.lines = before ++ line :: after) (hplain : announced before = false)
      (hleast : 2 ≤ j) (hj : j ≤ line.name.length) : Resumes r (r.lineStart before + j)
  /-- In a plain body that is not read as a header line. -/
  | plain {bytes : List UInt8} {k : Nat} (hbody : r.body = .plain bytes) (hk : r.headEnd < k)
      (hline : ¬ r.ReadsLine) (hend : k = r.headEnd + 1 → 0 < r.contentEnd r.headEnd) : Resumes r k
  /-- In the empty line in front of a body in chunks that has none. -/
  | empty {text : ChunkedText} (hbody : r.body = .chunked text) (hchunks : text.chunks = [])
      (hend : 0 < r.contentEnd r.headEnd) : Resumes r (r.headEnd + 1)
  /-- Where a body in chunks begins. -/
  | start {text : ChunkedText} (hbody : r.body = .chunked text) : Resumes r (r.headEnd + 2)
  /-- In a chunk, behind the digits of its size. -/
  | data {text : ChunkedText} {before : List ChunkText} {chunk : ChunkText} {after : List ChunkText}
      {k : Nat} (hbody : r.body = .chunked text) (hchunks : text.chunks = before ++ chunk :: after)
      (hsize : r.chunksEnd before + chunk.size.length < k) (hk : k ≤ r.chunksEnd (before ++ [chunk]))
      (hrestarts : Restarts r text (before ++ [chunk]) after k) : Resumes r k
  /-- In the digits of the last size line. -/
  | size {text : ChunkedText} {k : Nat} (hbody : r.body = .chunked text)
      (hsize : r.chunksEnd text.chunks < k) (hk : k ≤ r.chunksEnd text.chunks + text.last.length)
      (hrestarts : Restarts r text text.chunks [] k) : Resumes r k
  /-- Behind them. -/
  | last {text : ChunkedText} {k : Nat} (hbody : r.body = .chunked text)
      (hlast : r.chunksEnd text.chunks + text.last.length < k) : Resumes r k

theorem Resumes.resumed (h : r.Resumes k) (hr : r.Good) (hfits : r.Fits) (hlt : k < r.text.length)
    (memory : List UInt8) (raw : HttpResponse) (fresh : Fresh) : r.Resumed memory k raw fresh := by
  cases h with
  | @name before line after j hlines hplain hleast hj =>
    have hstart := length_le_lineStart r before
    exact resumed_name hr hfits hlines (by omega) (by omega) hplain hleast hj memory
      raw fresh
  | plain hbody hk hline hend => exact resumed_plain hr hbody hfits hk hlt hline hend memory raw fresh
  | empty hbody hchunks hend =>
    exact resumed_empty hr hbody hfits (Nat.lt_succ_self _) (Nat.le_succ _)
      (fun _ => ⟨hchunks, hend⟩) memory raw fresh
  | start hbody =>
    exact resumed_empty hr hbody hfits (by omega) le_rfl (fun h => absurd h (by omega)) memory raw
      fresh
  | @data text before chunk after k hbody hchunks hsize hk hrestarts =>
    obtain ⟨i, rfl⟩ := Nat.exists_eq_add_of_le (show r.chunksEnd before ≤ k by omega)
    rw [chunksEnd_append] at hk
    have hle := r.le_chunksEnd before
    obtain ⟨memory', hstops⟩ := stops_data (i := i) hr hbody hfits hchunks (by omega) (by omega)
      memory raw fresh
    exact hstops.resumed hr hbody (by simp [hchunks]) (by omega) hlt.le hfits hrestarts
  | @size text k hbody hsize hk hrestarts =>
    obtain ⟨i, rfl⟩ := Nat.exists_eq_add_of_le hsize.le
    have hle := r.le_chunksEnd text.chunks
    by_cases hlf : 2 ≤ i → memory.getD (r.chunksEnd text.chunks + i) 0 ≠ lf
    · obtain ⟨memory', hstops⟩ := stops_size hr hbody hfits (List.append_nil _).symm (by omega)
        (show i ≤ text.last.length by omega) hlf raw fresh
      exact hstops.resumed hr hbody (List.append_nil _).symm (by omega) hlt.le hfits hrestarts
    · obtain ⟨hi, hlf⟩ := Classical.not_imp.mp hlf
      exact resumed_last hr hbody hfits (by omega) hlt.le
        (Or.inr ⟨by omega, hi, not_not.mp hlf⟩) raw fresh
  | @last text k hbody hlast =>
    obtain ⟨i, rfl⟩ := Nat.exists_eq_add_of_le (show r.chunksEnd text.chunks ≤ k by omega)
    have hle := r.le_chunksEnd text.chunks
    exact resumed_last hr hbody hfits (by omega) hlt.le (Or.inl (by omega)) raw fresh

section

variable {text : ChunkedText} {chunks rest : List ChunkText}

variable (hr : r.Good) (hbody : r.body = .chunked text) (hchunks : text.chunks = chunks ++ rest)

include hr hbody hchunks

/-- A line that has been parsed ends in front of the next size line. -/
theorem zero_atSecond (hk : r.chunksEnd chunks ≤ k) (hlt : k ≤ r.text.length) :
    ∃ p, r.restart chunks ≤ p ∧ p < r.chunksEnd chunks ∧
      (r.atSecond text chunks rest k).getD p 0 = 0 := by
  have hstatus := hr.status.le_length
  have hle := r.le_chunksEnd chunks
  obtain ⟨front, tail, hfront, hend⟩ : ∃ front tail,
      r.afterChunks chunks (text.behind rest) = front ++ 0 :: tail ∧
      (front.length + 2 = r.chunksEnd chunks ∨ front.length + 4 = r.chunksEnd chunks) := by
    rcases List.eq_nil_or_concat chunks with rfl | ⟨before, chunk, rfl⟩
    · obtain ⟨lines, line, hlines⟩ : ∃ lines line, r.lines = lines ++ [line] :=
        ⟨_, _, (List.dropLast_append_getLast hr.lines_ne_nil).symm⟩
      refine ⟨r.linesBefore lines ++ (line.name ++ 0 :: (line.gap ++ line.value)),
        lf :: cr :: lf :: text.behind rest, ?_, Or.inr ?_⟩
      · simp [afterChunks, parsedHead, linesBefore, hlines, Line.parsed]
      · rw [chunksEnd, headEnd, hlines]
        simp [lineStart, Line.length_text]
        omega
    · refine ⟨r.afterChunks before (chunk.size ++ cr :: lf :: chunk.data), lf :: text.behind rest, ?_,
        Or.inl ?_⟩
      · rw [afterChunks_append, List.concat_eq_append]
        simp [afterChunks, ChunkText.parsed]
      · rw [List.concat_eq_append, chunksEnd_append, length_afterChunks]
        simp [ChunkText.text]
        omega
  have hget := getD_of_take (take_atSecond hbody hchunks hlt) (i := front.length) (by omega)
  rw [hfront, getD_at rfl] at hget
  exact ⟨front.length, by rw [restart]; omega, by omega, hget⟩

/-- In the digits of a size no response can be cut, the last one apart. -/
theorem Segmented.size (h : r.Segmented k) (hfits : r.Fits) (hpos : r.chunksEnd chunks < k)
    (hk : k ≤ r.chunksEnd chunks + (text.next rest).length) (hlt : k < r.text.length) :
    rest = [] ∧ Restarts r text chunks rest k := by
  have hle := r.le_chunksEnd chunks
  obtain ⟨i, rfl⟩ := Nat.exists_eq_add_of_le hpos.le
  have hrestarts := h.restarts hr hbody hfits hchunks (by omega) hlt fun memory hlf =>
    stops_size hr hbody hfits hchunks (by omega) (by omega) (fun _ => hlf hpos) _ _
  refine ⟨?_, hrestarts⟩
  by_cases hends : r.restart chunks + 2 < r.chunksEnd chunks + i ∧
      LooksEnded (r.atSecond text chunks rest (r.chunksEnd chunks + i)) (r.restart chunks)
  · exact (hrestarts.content (fun _ => hends.2.1) fun _ => hends.2.2).1
  · rcases hrestarts.scanned hends with ⟨hnil, -⟩ | hskip
    · exact hnil
    · obtain ⟨p, hp, hlt', hzero⟩ := zero_atSecond hr hbody hchunks hpos.le hlt.le
      obtain ⟨-, -, -, -, -, hbefore⟩ := scanFrom_eq_some_iff.mp hskip
      exact absurd hzero (hbefore p hp hlt').1

end

/-- A body in chunks can be cut nowhere else. -/
theorem Segmented.chunked {text : ChunkedText} (h : r.Segmented k) (hr : r.Good) (hfits : r.Fits)
    (hbody : r.body = .chunked text) (hk : r.headEnd < k) (hlt : k < r.text.length) :
    r.Resumes k := by
  have hlength := r.length_text
  rcases Nat.lt_or_ge (r.headEnd + 2) k with hgt | hle
  · rcases Nat.lt_or_ge (r.chunksEnd text.chunks) k with hbehind | hin
    · rcases Nat.lt_or_ge (r.chunksEnd text.chunks + text.last.length) k with hlast | hsize
      · exact .last hbody hlast
      · exact .size hbody hbehind hsize (h.size hr hbody (List.append_nil _).symm hfits hbehind
          hsize hlt).2
    · obtain ⟨before, chunk, after, j, hchunks, hj, hpos, hle⟩ := exists_split
        (f := ChunkText.text) (l := text.chunks) (i := k - (r.headEnd + 2)) (by omega)
        (by rw [chunksEnd] at hin; omega)
      have hcut : k = r.chunksEnd before + j := by
        rw [chunksEnd]
        omega
      rcases Nat.lt_or_ge chunk.size.length j with hdata | hsize
      · have hchunks' : text.chunks = (before ++ [chunk]) ++ after := by simp [hchunks]
        have hrestarts := h.restarts hr hbody hfits hchunks' hgt hlt fun memory _ => by
          rw [hcut]
          exact stops_data hr hbody hfits hchunks hdata hle memory _ _
        exact .data hbody hchunks (by omega) (by rw [chunksEnd_append]; omega) hrestarts
      · have hnil := (h.size hr hbody hchunks hfits (by omega)
          (show k ≤ r.chunksEnd before + chunk.size.length by omega) hlt).1
        cases hnil
  · rcases Nat.lt_or_ge (r.headEnd + 1) k with hgt | hle
    · obtain rfl : k = r.headEnd + 2 := by omega
      exact .start hbody
    · obtain rfl : k = r.headEnd + 1 := by omega
      obtain ⟨hchunks, hend⟩ := h.empty hr hbody hfits
      exact .empty hbody hchunks hend

/-- A response can be cut nowhere else. -/
theorem Segmented.resumes (h : r.Segmented k) (hr : r.Good) (hfits : r.Fits) (hk : 0 < k)
    (hlt : k < r.text.length) : r.Resumes k := by
  have hlength := r.length_text
  have hstart : r.headEnd = r.status.text.length + (r.lines.flatMap Line.text).length := rfl
  have hzero : r.zeros.getD k 0 ≠ lf := by
    rw [zeros_getD hlt]
    decide
  obtain ⟨two, htwo, -⟩ := h.exists_two hr hfits length_zeros HttpResponse.zeros Fresh.zeros
  rcases Nat.lt_or_ge k (r.status.text.length + 2) with hfirst | hsecond
  · -- nothing of the first read is kept
    have hnone : receiveTwo HttpResponse.zeros Fresh.zeros r.zeros (r.text.take k) (r.text.drop k) =
        none := by
      rcases Nat.lt_or_ge (k + 1) r.status.text.length with hin | hend
      · exact receiveTwo_status hr hin hzero _
      · exact receiveTwo_start hr hend hfirst _
    rw [hnone] at htwo
    cases htwo
  · rcases Nat.lt_or_ge r.headEnd k with hbehind | hin
    · cases hbody : r.body with
      | plain bytes =>
        obtain ⟨hline, hend⟩ := h.plain hr hbody hfits hbehind hlt
        exact .plain hbody hbehind hline hend
      | chunked text => exact h.chunked hr hfits hbody hbehind hlt
    · obtain ⟨before, line, after, j, hlines, hj, hpos, hle⟩ := exists_split (f := Line.text)
        (l := r.lines) (i := k - r.status.text.length) (by omega) (by omega)
      obtain rfl : k = r.lineStart before + j := by
        rw [lineStart]
        omega
      by_contra hnot
      refine not_segmented_line hr hfits hlines hpos (by omega) hle ?_ h
      rintro ⟨hplain, hleast, hname⟩
      exact hnot (.name hlines hplain hleast hname)

/-! # Tables that grow -/

/-- A response that is read at once. -/
theorem receive_started (hr : r.Good) (raw : HttpResponse) (fresh : Fresh) (memory : List UInt8) :
    (receive raw fresh ⟨none, .init memory⟩ r.text).map tables =
      (raw.begun.parseFrom fresh (r.started memory r.text.length) 0 r.text.length
        r.status.text.length).map fun t => (r.status.line, t.2.1, t.2.2) := by
  have hstatus : r.status.text.length ≤ r.text.length := by
    rw [length_text, headEnd]
    omega
  have hline := lineParse_started hr hstatus le_rfl memory
  rw [List.take_length] at hline
  exact receive_tables hline

/-- Nothing that new objects hold is in the tables of a response that can be cut. -/
theorem Segmented.same (h : r.Segmented k) (hr : r.Good) (raw : HttpResponse) (fresh fresh' : Fresh) :
    ∃ t t', raw.begun.parseFrom fresh (r.started r.zeros r.text.length) 0 r.text.length
        r.status.text.length = some t ∧
      raw.begun.parseFrom fresh' (r.started r.zeros r.text.length) 0 r.text.length
        r.status.text.length = some t' ∧
      (∀ i < t.2.1.miHeaderSize, t'.2.1.mpoHeaders i = t.2.1.mpoHeaders i) ∧
      ∀ i < t.2.1.miChunkSize, t'.2.1.mpoChunks i = t.2.1.mpoChunks i := by
  obtain ⟨one, two, hone, htwo, hsame⟩ := h r.zeros length_zeros raw raw fresh fresh
  obtain ⟨one', two', hone', htwo', hsame'⟩ := h r.zeros length_zeros raw raw fresh' fresh
  obtain rfl : two = two' := Option.some.inj (htwo.symm.trans htwo')
  rw [receive_started hr] at hone hone'
  obtain ⟨t, ht, rfl⟩ := Option.map_eq_some_iff.mp hone
  obtain ⟨t', ht', rfl⟩ := Option.map_eq_some_iff.mp hone'
  refine ⟨t, t', ht, ht', fun i hi => ?_, fun i hi => ?_⟩
  · exact (hsame'.headers i (hsame'.headerSize ▸ hsame.headerSize ▸ hi)).symm.trans
      (hsame.headers i hi)
  · exact (hsame'.chunks i (hsame'.chunkSize ▸ hsame.chunkSize ▸ hi)).symm.trans
      (hsame.chunks i hi)

/-- When there is no room for a line, the entries in front of it are lost. -/
theorem headerLoop_lost {before : List Line} {line : Line} {header : CIMFHeader} {keyvalue : KeyValue}
    {pre : List UInt8} {buf : Nat} {len : Int} (rest : List UInt8) (fuel : Nat)
    (hbefore : ∀ line ∈ before, line.Good) (hline : line.Good) (hbuf : buf ≤ pre.length)
    (hpos : 0 < before.length) (hcap : header.miCapHeaderSize = before.length)
    (hsize : header.miHeaderSize = 0) (hfresh : ∀ n, fresh.keyValues n 0 = keyvalue)
    (hlen : (pre.length : Int) + (before.flatMap Line.text).length + line.text.length ≤ buf + len) :
    let t := headerLoop fresh buf len (fuel + 1 + before.length) header
      (pre ++ (before.flatMap Line.text ++ (line.text ++ rest))) pre.length 0
    0 < t.2.2.2 ∧ t.1.mpoHeaders 0 = keyvalue := by
  intro t
  have hlength := line.length_text
  have hstart : (pre ++ before.flatMap Line.parsed).length =
      pre.length + (before.flatMap Line.text).length := by
    rw [List.length_append, HTTPClient.length_parsed]
  have hmemory : pre ++ (before.flatMap Line.parsed ++ (line.text ++ rest)) =
      (pre ++ before.flatMap Line.parsed) ++ (line.name ++ ascii ':' :: (line.gap ++ (line.value ++
        cr :: (lf :: rest)))) := by simp [Line.text]
  have hhead : ((pre ++ before.flatMap Line.parsed) ++ (line.name ++ ascii ':' :: (line.gap ++
      (line.value ++ cr :: (lf :: rest))))).getD (pre ++ before.flatMap Line.parsed).length 0 ≠ cr := by
    obtain ⟨c, name, hname, hc⟩ := hline.exists_first
    rw [hname, List.cons_append, getD_at rfl]
    exact hc.2.1
  have ht : t = _ := headerLoop_lines hbefore hbuf (by omega) (by omega)
  rw [hmemory, ← hstart, headerLoop_next fresh fuel _ _ (by omega) fun h => hhead h.1,
    nextLine_line hline (by omega) (by omega)] at ht
  rw [ht]
  have hlost : ∀ header' : CIMFHeader, header'.miHeaderSize = 0 →
      header'.miCapHeaderSize = before.length → ∀ entry, Function.update
        (header'.getHeaders fresh (0 + before.length)).mpoHeaders (0 + before.length) entry 0 =
          keyvalue := by
    intro header' hsize' hcap' entry
    rw [Function.update_of_ne (by omega), getHeaders, if_neg (by omega)]
    simp only [hsize', Nat.lt_irrefl, if_false, hfresh]
  refine And.imp_left (Nat.lt_of_lt_of_le (Nat.succ_pos _)) (headerLoop_keeps (Q := (· = keyvalue))
    hfresh (Nat.succ_pos _) ?_)
  exact hlost { header with mpoHeaders := enter header.mpoHeaders 0 (pre.length - buf) before } hsize
    hcap _

/-- Of more lines than there is room for, the first is lost. -/
theorem lost_line (hr : r.Good) (hgt : keyvalBufferSize < r.lines.length) {keyvalue : KeyValue}
    (hfresh : ∀ n, fresh.keyValues n 0 = keyvalue) {t : Int × CIMFHeader × List UInt8}
    (h : raw.begun.parseFrom fresh (r.started memory r.text.length) 0 r.text.length
      r.status.text.length = some t) :
    0 < t.2.1.miHeaderSize ∧ t.2.1.mpoHeaders 0 = keyvalue := by
  obtain ⟨before, after, hlines, hsize⟩ := split_of_getElem? (List.getElem?_eq_getElem hgt)
  generalize r.lines[keyvalBufferSize] = line at hlines
  have htext := r.length_text
  have hhead : r.headEnd = r.status.text.length + (r.lines.flatMap Line.text).length := rfl
  have hline := hr.lines line (by simp [hlines])
  have hparsed := r.status.length_parsed
  obtain ⟨rest, hmemory⟩ : ∃ rest, r.started memory r.text.length =
      r.status.parsed ++ (r.lines.flatMap Line.text ++ rest) := ⟨_, started_body (by omega) memory⟩
  obtain ⟨c, tail, hfirst, hc⟩ := hr.exists_first
  have hskip : skipCrlf (r.started memory r.text.length) (some (0 + r.status.text.length))
      (r.text.length - r.status.text.length) = some r.status.text.length := by
    rw [hmemory, hfirst, Nat.zero_add]
    exact skipCrlf_first hc (by omega)
  rw [hlines, List.flatMap_append, List.flatMap_cons] at hhead hmemory
  rw [List.length_append, List.length_append] at hhead
  have hcount := length_le_length_flatMap (f := Line.text) (by simp [Line.text]) before
  have hfuel : (r.text.length : Int).toNat + 1 =
      r.text.length - before.length + 1 + before.length := by omega
  have hcap : raw.begun.miCapHeaderSize = before.length := hsize
  have hlen : (r.status.parsed.length : Int) + (before.flatMap Line.text).length +
      line.text.length ≤ (0 : Nat) + r.text.length := by omega
  have hlost := headerLoop_lost (after.flatMap Line.text ++ rest) (r.text.length - before.length)
    (fun l hl => hr.lines l (by simp [hlines, hl])) hline (Nat.zero_le r.status.parsed.length)
    (by rw [← hsize]; decide) hcap rfl hfresh hlen
  rw [← hfuel, hparsed] at hlost
  simp only [List.append_assoc] at hmemory
  rw [parseFrom, parseLines_some rfl hskip rfl, hmemory] at h
  obtain ⟨⟨hheaders, hentries, -⟩, -⟩ := parseBody_same h
  rw [hheaders, hentries]
  exact hlost

/-- Of more chunks than there is room for, the first is lost. -/
theorem lost_chunk {text : ChunkedText} (hr : r.Good) (hbody : r.body = .chunked text)
    (hlines : r.lines.length ≤ keyvalBufferSize) (hgt : keyvalBufferSize < text.chunks.length)
    {entry : Chunk} (hfresh : ∀ n, fresh.chunks n 0 = entry) {t : Int × CIMFHeader × List UInt8}
    (h : raw.begun.parseFrom fresh (r.started memory r.text.length) 0 r.text.length
      r.status.text.length = some t) :
    0 < t.2.1.miChunkSize ∧ t.2.1.mpoChunks 0 = entry := by
  have hchunks : text.chunks = text.chunks.take keyvalBufferSize ++
      text.chunks[keyvalBufferSize] :: text.chunks.drop (keyvalBufferSize + 1) := by
    rw [← List.drop_eq_getElem_cons hgt, List.take_append_drop]
  have hsize : (text.chunks.take keyvalBufferSize).length = keyvalBufferSize :=
    List.length_take_of_le hgt.le
  generalize text.chunks.take keyvalBufferSize = before at hchunks hsize
  generalize text.chunks[keyvalBufferSize] = chunk at hchunks
  generalize text.chunks.drop (keyvalBufferSize + 1) = after at hchunks
  have hchunk := (hr.chunked text hbody).2.chunks chunk (by simp [hchunks])
  have hwhole := length_behind hbody hchunks
  have hle := r.le_chunksEnd before
  have hpos := chunk.length_text
  obtain ⟨tail, hbehind⟩ : ∃ tail, text.behind (chunk :: after) = chunk.size ++ cr :: tail :=
    ⟨lf :: (chunk.data ++ cr :: lf :: text.behind after), by simp [ChunkedText.behind, ChunkText.text]⟩
  have hlength : chunk.size.length < (text.behind (chunk :: after)).length := by
    rw [hbehind, List.length_append, List.length_cons]
    omega
  obtain ⟨fuel, hparse⟩ := parseFrom_whole hr hbody hlines hsize.le hchunks (by omega) hwhole.le memory
    raw fresh
  rw [hwhole, List.take_length] at hparse
  have hdrop : (r.afterChunks before (text.behind (chunk :: after) ++ memory.drop r.text.length)).drop
      (r.chunksEnd before) = chunk.size ++ cr :: (tail ++ memory.drop r.text.length) := by
    rw [r.drop_afterChunks, hbehind, List.append_assoc, List.cons_append]
  have hlen : (chunk.size.length : Int) < (r.text.length : Int) - r.chunksEnd before := by omega
  have hnext := nextChunk_text hchunk hdrop hlen
  rw [hparse, chunkLoop_record hnext] at h
  obtain ⟨⟨ret, header, memory'⟩, hloop, rfl⟩ := Option.map_eq_some_iff.mp h
  split at hloop
  · cases hloop
  · refine And.imp_left (Nat.lt_of_lt_of_le (Nat.succ_pos _)) (chunkLoop_keeps (Q := (· = entry))
      hfresh (Nat.succ_pos _) ?_ hloop)
    simp only
    rw [Function.update_of_ne (by rw [hsize]; decide), getChunks,
      if_neg (by rw [hsize]; exact Nat.lt_irrefl _)]
    simp only [Nat.lt_irrefl, if_false, hfresh]

/-- When a table grows, a response cannot be cut: what is lost depends on what new objects hold. -/
theorem Segmented.fits (h : r.Segmented k) (hr : r.Good) : r.Fits := by
  have hlines : r.lines.length ≤ keyvalBufferSize := by
    by_contra hgt
    obtain ⟨t, t', ht, ht', hheaders, -⟩ := h.same hr HttpResponse.zeros Fresh.zeros
      { Fresh.zeros with keyValues := fun _ _ => ⟨1, 0, 0, 0⟩ }
    obtain ⟨hpos, hentry⟩ := lost_line hr (Nat.lt_of_not_le hgt) (fun _ => rfl) ht
    obtain ⟨-, hentry'⟩ := lost_line hr (Nat.lt_of_not_le hgt) (fun _ => rfl) ht'
    have hsame := hentry'.symm.trans ((hheaders 0 hpos).trans hentry)
    exact absurd (congrArg KeyValue.keyStart hsame) (by decide)
  refine ⟨hlines, ?_⟩
  cases hbody : r.body with
  | plain bytes => exact Nat.zero_le _
  | chunked text =>
    by_contra hgt
    obtain ⟨t, t', ht, ht', -, hchunks⟩ := h.same hr HttpResponse.zeros Fresh.zeros
      { Fresh.zeros with chunks := fun _ _ => ⟨1, 0⟩ }
    obtain ⟨hpos, hentry⟩ := lost_chunk hr hbody hlines (Nat.lt_of_not_le hgt) (fun _ => rfl) ht
    obtain ⟨-, hentry'⟩ := lost_chunk hr hbody hlines (Nat.lt_of_not_le hgt) (fun _ => rfl) ht'
    have hsame := hentry'.symm.trans ((hchunks 0 hpos).trans hentry)
    exact absurd (congrArg Chunk.start hsame) (by decide)

/-- A response can be cut where the second read goes on, when its tables need not grow, and nowhere
else. -/
theorem segmented_iff_resumes (hr : r.Good) (hpos : 0 < k) (hlt : k < r.text.length) :
    r.Segmented k ↔ r.Fits ∧ r.Resumes k := by
  constructor
  · intro h
    exact ⟨h.fits hr, h.resumes hr (h.fits hr) hpos hlt⟩
  · rintro ⟨hfits, h⟩
    exact segmented_of_resumed hr hfits fun memory _ raw fresh => h.resumed hr hfits hlt memory raw
      fresh

/-- Nothing in front of the second byte of the header lines is such a place. -/
theorem Resumes.le (h : r.Resumes k) (hr : r.Good) : r.status.text.length + 2 ≤ k := by
  obtain ⟨line, after, hlines⟩ := List.exists_cons_of_ne_nil hr.lines_ne_nil
  have hline := line.length_text
  have hhead : r.headEnd = r.status.text.length + (r.lines.flatMap Line.text).length := rfl
  rw [hlines, List.flatMap_cons, List.length_append] at hhead
  cases h with
  | @name before line after j hlines hplain hleast hj =>
    have hle := length_le_lineStart r before
    omega
  | plain hbody hk hline hend => omega
  | empty hbody hchunks hend => omega
  | start hbody => omega
  | @data text before chunk after k hbody hchunks hsize hk hrestarts =>
    have hle := r.le_chunksEnd before
    omega
  | @size text k hbody hsize hk hrestarts =>
    have hle := r.le_chunksEnd text.chunks
    omega
  | @last text k hbody hlast =>
    have hle := r.le_chunksEnd text.chunks
    omega

/-- `A 1 O`, with one chunk. -/
def chunkOfOne : Response where
  status := ⟨[ascii 'A'], [ascii '1'], [ascii 'O']⟩
  lines := [⟨transferEncoding, [], chunked⟩]
  body := .chunked ⟨[⟨[ascii '1'], [ascii 'x']⟩], [ascii '0'], []⟩

theorem chunkOfOne_segmented : chunkOfOne.Segmented 9 ∧ ¬ chunkOfOne.Segmented 3 := by
  have hlast : IsSize [ascii '0'] := ⟨by decide, List.all_iff_forall_prop.mp rfl, by decide⟩
  have hchunk : (⟨[ascii '1'], [ascii 'x']⟩ : ChunkText).Good :=
    ⟨⟨by decide, List.all_iff_forall_prop.mp rfl, by decide⟩, by decide, by decide, by decide⟩
  have hgood : chunkOfOne.Good := by
    refine ⟨⟨List.all_iff_forall_prop.mp rfl, List.all_iff_forall_prop.mp rfl,
      List.all_iff_forall_prop.mp rfl, ⟨_, rfl, by decide⟩, ⟨_, rfl, by decide⟩,
      ⟨_, rfl, by decide⟩⟩, ?_, by decide, ?_, ?_⟩
    · intro line hline
      rw [List.mem_singleton.mp hline]
      exact ⟨by decide, List.all_iff_forall_prop.mp rfl, List.all_iff_forall_prop.mp rfl,
        List.all_iff_forall_prop.mp rfl, _, rfl, by decide⟩
    · intro bytes hbytes
      cases hbytes
    · intro text htext
      cases htext
      refine ⟨by decide, fun chunk hmem => ?_, hlast, by decide⟩
      rw [List.mem_singleton.mp hmem]
      exact hchunk
  have hname : chunkOfOne.Resumes (chunkOfOne.lineStart [] + 2) :=
    .name (List.nil_append _).symm rfl le_rfl (by decide)
  refine ⟨(segmented_iff_resumes hgood (by decide) (by decide)).mpr ⟨⟨by decide, by decide⟩, hname⟩,
    fun h => ?_⟩
  have hresumes := ((segmented_iff_resumes hgood (by decide) (by decide)).mp h).2
  exact absurd (hresumes.le hgood) (by decide)

end Response

end HTTPClient
