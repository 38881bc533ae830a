-- SUMMARY: A response in two reads: what becomes of it when the first one ends in its header.
import Mathlib.Data.List.GetD
import NetworkEtc.HTTPClient.Response

/-!
# Two reads

The first read of a response ends with its byte `k`.
-/

namespace HTTPClient

open Library Library.Printf Netfram CIMFHeader CHttpHandler

/-- Behind the byte at `p` there seems to be an empty line. -/
def LooksEnded (memory : List UInt8) (p : Nat) : Prop :=
  memory.getD (p + 1) 0 = cr ∧ memory.getD (p + 2) 0 = lf

namespace Response

/-- Whatever the block and new objects hold, the response ends with the same tables when its byte `k`
begins a second read, as when it is read at once. -/
def Segmented (r : Response) (k : Nat) : Prop :=
  ∀ memory : List UInt8, r.text.length ≤ memory.length → ∀ raw raw' fresh fresh', ∃ one two,
    (receive raw fresh ⟨none, .init memory⟩ r.text).map tables = some one ∧
    (receiveTwo raw' fresh' memory (r.text.take k) (r.text.drop k)).map tables = some two ∧
    SameTables one two

/-- The tables after two reads are those of the response. -/
def Resumed (r : Response) (memory : List UInt8) (k : Nat) (raw : HttpResponse) (fresh : Fresh) :
    Prop :=
  ∃ t, (receiveTwo raw fresh memory (r.text.take k) (r.text.drop k)).map tables = some t ∧
    r.Recorded t

/-- A block that holds zeros, and a line feed where the response ends. -/
def zeros (r : Response) : List UInt8 := List.replicate r.text.length 0 ++ [lf]

variable {r : Response} {raw : HttpResponse} {fresh : Fresh} {memory : List UInt8} {k : Nat}

theorem segmented_of_resumed (hr : r.Good) (hfits : r.Fits)
    (h : ∀ memory, r.text.length ≤ memory.length → ∀ raw fresh, r.Resumed memory k raw fresh) :
    r.Segmented k := by
  intro memory hmemory raw raw' fresh fresh'
  obtain ⟨one, hone, hrecorded⟩ := receive_recorded hr hfits raw fresh memory
  obtain ⟨two, htwo, hrecorded'⟩ := h memory hmemory raw' fresh'
  exact ⟨one, two, hone, htwo, hrecorded.same hr hrecorded'⟩

/-- Where the size line behind some chunks begins. -/
def chunksEnd (r : Response) (chunks : List ChunkText) : Nat :=
  r.headEnd + 2 + (chunks.flatMap ChunkText.text).length

/-- What two reads must end with. -/
theorem Segmented.exists_two (h : r.Segmented k) (hr : r.Good) (hfits : r.Fits)
    (hmemory : r.text.length ≤ memory.length) (raw : HttpResponse) (fresh : Fresh) : ∃ two,
      (receiveTwo raw fresh memory (r.text.take k) (r.text.drop k)).map tables = some two ∧
      two.2.1.miHeaderSize = r.lines.length ∧ two.2.1.miChunkSize = r.body.chunks.length ∧
      ∀ before chunk after, r.body.chunks = before ++ chunk :: after →
        two.2.1.mpoChunks before.length = chunk.entry (r.chunksEnd before) := by
  obtain ⟨one, two, hone, htwo, hsame⟩ := h memory hmemory raw raw fresh fresh
  obtain ⟨t, ht, hrecorded⟩ := receive_recorded hr hfits raw fresh memory
  obtain rfl : t = one := Option.some.inj (ht.symm.trans hone)
  refine ⟨two, htwo, hsame.headerSize.trans hrecorded.table.size,
    hsame.chunkSize.trans hrecorded.chunkSize, fun before chunk after hchunks => ?_⟩
  obtain ⟨mpoChunks, hentries⟩ := hrecorded.chunks
  have hlt : before.length < t.2.1.miChunkSize := by
    rw [hrecorded.chunkSize, hchunks]
    simp
  have hat := enterChunks_at mpoChunks 0 (r.headEnd + 2) before chunk after
  rw [Nat.zero_add] at hat
  rw [hsame.chunks _ hlt, hentries, hchunks, hat, chunksEnd]

theorem length_zeros : r.text.length ≤ r.zeros.length := by
  simp [zeros]

theorem zeros_getD (hk : k < r.text.length) : r.zeros.getD k 0 = 0 := by
  rw [zeros, List.getD_append _ _ _ _ (by simpa using hk), List.getD_replicate _ hk]

theorem drop_zeros (r : Response) : r.zeros.drop r.text.length = [lf] := by
  rw [zeros, List.drop_left' (by rw [List.length_replicate])]

/-- A block that seems to hold an empty line behind its byte `p`. -/
def marked (r : Response) (p : Nat) : List UInt8 :=
  List.replicate (p + 1) 0 ++ cr :: lf :: List.replicate r.text.length 0

theorem length_marked (r : Response) (p : Nat) : r.text.length ≤ (r.marked p).length := by
  simp only [marked, List.length_append, List.length_replicate, List.length_cons]
  omega

theorem looksEnded_marked (r : Response) (p : Nat) : LooksEnded (r.marked p) p := by
  have hcr : (r.marked p).getD (p + 1) 0 = cr := getD_at (by rw [List.length_replicate])
  have hlf : r.marked p =
      (List.replicate (p + 1) 0 ++ [cr]) ++ lf :: List.replicate r.text.length 0 := by simp [marked]
  refine ⟨hcr, ?_⟩
  rw [hlf]
  exact getD_at (by simp)

theorem marked_getD {p i : Nat} (hi : p + 2 < i) : (r.marked p).getD i 0 = 0 := by
  obtain ⟨i, rfl⟩ := Nat.exists_eq_add_of_le (show p + 3 ≤ i from hi)
  have hsplit : r.marked p = (List.replicate (p + 1) 0 ++ [cr, lf]) ++
      List.replicate r.text.length 0 := by simp [marked]
  rw [hsplit, List.getD_append_right _ _ _ _ (by simp)]
  rcases Nat.lt_or_ge i r.text.length with hlt | hge
  · exact List.getD_replicate _ (by simpa using hlt)
  · exact List.getD_eq_default _ _ (by simpa using hge)

/-! # A read that ends in the status line -/

/-- A byte of a text, with something behind it. -/
theorem getD_append_mem {text : List UInt8} (behind : List UInt8) {p : Nat} (hp : p < text.length) :
    (text ++ behind).getD p 0 ∈ text := by
  rw [List.getD_append _ _ _ _ hp, List.getD_eq_getElem _ _ hp]
  exact List.getElem_mem hp

theorem getD_drop (memory : List UInt8) (k i : Nat) :
    (memory.drop k).getD i 0 = memory.getD (k + i) 0 := by
  simp [List.getD_eq_getElem?_getD, List.getElem?_drop]

theorem getD_append_add (front rest : List UInt8) (i : Nat) :
    (front ++ rest).getD (front.length + i) 0 = rest.getD i 0 := by
  rw [List.getD_append_right _ _ _ _ (Nat.le_add_right ..), Nat.add_sub_cancel_left]

/-- A scanner that goes over a text does not find anything when a zero stands behind it. -/
theorem scanFrom_zero {least size : Int} {go : UInt8 → UInt8 → Bool} {memory a b : List UInt8}
    {p : Nat} (hdrop : memory.drop p = a ++ 0 :: b)
    (ha : ∀ x ∈ a, ∀ y ∈ a ++ [0], go x y = true) : scanFrom least go memory (some p) size = none := by
  have hget : ∀ i, memory.getD (p + i) 0 = (a ++ 0 :: b).getD i 0 := fun i => by
    rw [← getD_drop, hdrop]
  have hmem : ∀ i ≤ a.length, (a ++ 0 :: b).getD i 0 ∈ a ++ [0] := by
    intro i hi
    have hsplit : a ++ 0 :: b = (a ++ [0]) ++ b := by simp
    rw [hsplit]
    exact getD_append_mem b (by rw [List.length_append, List.length_singleton]; omega)
  have hzero : (a ++ 0 :: b).getD a.length 0 = 0 := getD_at rfl
  cases hscan : scanFrom least go memory (some p) size with
  | none => rfl
  | some q =>
    obtain ⟨-, hle, -, hne, hstop, hbefore⟩ := scanFrom_eq_some_iff.mp hscan
    obtain ⟨i, rfl⟩ := Nat.exists_eq_add_of_le hle
    rw [hget] at hne
    rw [Nat.add_assoc, hget, hget] at hstop
    rcases Nat.lt_trichotomy i a.length with hlt | rfl | hgt
    · rw [ha _ (getD_append_mem (0 :: b) hlt) _ (hmem (i + 1) hlt)] at hstop
      cases hstop
    · exact absurd hzero hne
    · have hnonzero := (hbefore (p + a.length) (Nat.le_add_right ..) (by omega)).1
      rw [hget] at hnonzero
      exact absurd hzero hnonzero

/-- Behind the first read stands what the block held. -/
theorem getD_behind {front : List UInt8} {i : Nat} (hfront : front.length = k) (hi : k ≤ i)
    (memory : List UInt8) : (front ++ memory.drop k).getD i 0 = memory.getD i 0 := by
  subst hfront
  obtain ⟨i, rfl⟩ := Nat.exists_eq_add_of_le hi
  rw [getD_append_add, getD_drop]

/-- The block can make an empty line up. -/
theorem looksEnded_behind {front : List UInt8} {p : Nat} (hfront : front.length = k)
    (hk : k ≤ p + 1) (h : LooksEnded memory p) : LooksEnded (front ++ memory.drop k) p := by
  refine ⟨?_, ?_⟩
  · rw [getD_behind hfront hk]
    exact h.1
  · rw [getD_behind hfront (by omega)]
    exact h.2

/-- A text that ends no line does so neither with what is behind it. -/
theorem not_ended {text behind : List UInt8} (htext : ∀ c ∈ text, c ≠ cr ∧ c ≠ lf)
    (hbehind : behind.getD 0 0 ≠ lf) {p : Nat} (hp : p < text.length) :
    (text ++ behind).getD p 0 ≠ cr ∧ (text ++ behind).getD (p + 1) 0 ≠ lf := by
  refine ⟨(htext _ (getD_append_mem behind hp)).1, ?_⟩
  rcases Nat.lt_or_ge (p + 1) text.length with hlt | hge
  · exact (htext _ (getD_append_mem behind hlt)).2
  · rwa [List.getD_append_right _ _ _ _ hge, show p + 1 - text.length = 0 by omega]

/-- What stands in front of the end of a status line. -/
theorem exists_front {status : Status} (h : status.Good) : ∃ front, status.text = front ++ [cr, lf] ∧
    ∀ c ∈ front, c ≠ cr ∧ c ≠ lf := by
  refine ⟨status.version ++ ascii ' ' :: (status.code ++ ascii ' ' :: status.reason), ?_, ?_⟩
  · simp [Status.text]
  · intro c hc
    simp only [List.mem_append, List.mem_cons] at hc
    rcases hc with hc | rfl | hc | rfl | hc
    · exact ⟨(h.version c hc).2.1, (h.version c hc).2.2.1⟩
    · decide
    · exact ⟨(h.code c hc).2.1, (h.code c hc).2.2.1⟩
    · decide
    · exact ⟨(h.reason c hc).1, (h.reason c hc).2.1⟩

/-- Without the end of the status line nothing is kept. -/
theorem receiveTwo_status (hr : r.Good) (hk : k + 2 ≤ r.status.text.length)
    (hlf : memory.getD k 0 ≠ lf) (second : List UInt8) :
    receiveTwo raw fresh memory (r.text.take k) second = none := by
  obtain ⟨front, hfront, hends⟩ := exists_front hr.status
  rw [hfront, List.length_append, List.length_cons, List.length_singleton] at hk
  have htake : r.text.take k = front.take k := by
    rw [text, hfront, List.append_assoc, List.take_append_of_le_length (by omega)]
  have hlength : (front.take k).length = k := List.length_take_of_le (by omega)
  have hbehind : (memory.drop (front.take k).length).getD 0 0 ≠ lf := by
    rwa [hlength, getD_drop]
  rw [htake]
  apply receiveTwo_line
  by_contra hne
  obtain ⟨p, hp, hend⟩ := (lineParse_recognized _ _ _ _).ended hne
  have hp' : p < (front.take k).length := by omega
  obtain ⟨hcr, hlf⟩ := not_ended (fun c hc => hends c (List.mem_of_mem_take hc)) hbehind hp'
  exact hend.elim hcr hlf

theorem take_text (hk : r.status.text.length ≤ k) : r.text.take k = r.status.text ++
    (r.lines.flatMap Line.text ++ cr :: lf :: r.body.text).take (k - r.status.text.length) := by
  rw [text, List.take_append, List.take_of_length_le hk]

/-- The status line is there, though its line feed need not be. -/
theorem lineParse_take (hr : r.Good) (hk : r.status.text.length ≤ k + 1) (behind : List UInt8) :
    ∃ rest, lineParse (r.text.take k ++ behind) 0 (r.text.take k).length 0 =
      ((r.status.text.length : Int), r.status.line, rest) := by
  have hlength : r.status.text.length ≤ (r.text.take k).length + 1 := by
    rw [List.length_take, length_text, headEnd]
    omega
  rcases Nat.lt_or_ge k r.status.text.length with hlt | hge
  · have htext : r.text.take k = r.status.version ++ ascii ' ' :: (r.status.code ++ ascii ' ' ::
        (r.status.reason ++ [cr])) := by
      have hsplit : r.text = (r.status.version ++ ascii ' ' :: (r.status.code ++ ascii ' ' ::
          (r.status.reason ++ [cr]))) ++ (lf :: (r.lines.flatMap Line.text ++ cr :: lf ::
            r.body.text)) := by simp [text, Status.text]
      have hcut := r.status.length_text
      rw [hsplit]
      apply List.take_left'
      simp only [List.length_append, List.length_cons, List.length_nil]
      omega
    generalize (r.text.take k).length = n at hlength
    have hn : (r.status.text.length : Int) ≤ n + 1 := by omega
    have hcr : r.text.take k ++ behind = r.status.version ++ ascii ' ' :: (r.status.code ++
        ascii ' ' :: (r.status.reason ++ cr :: behind)) := by simp [htext]
    rw [hcr, lineParse_text hr.status hn]
    exact ⟨_, rfl⟩
  · have hle : (r.status.text.length : Int) ≤ (r.text.take k).length := by
      rw [List.length_take, length_text, headEnd]
      omega
    generalize (r.text.take k).length = n at hle
    rw [take_text hge, List.append_assoc, lineParse_status hr.status hle]
    exact ⟨_, rfl⟩

/-- Without the start of the first header line nothing is kept either. -/
theorem receiveTwo_start (hr : r.Good) (hk : r.status.text.length ≤ k + 1)
    (hlt : k < r.status.text.length + 2) (second : List UInt8) :
    receiveTwo raw fresh memory (r.text.take k) second = none := by
  obtain ⟨rest, hline⟩ := lineParse_take hr hk (memory.drop (r.text.take k).length)
  have hlen : ((r.text.take k).length : Int) - r.status.text.length < 2 := by
    rw [List.length_take]
    omega
  have hskip : skipCrlf rest (some (0 + r.status.text.length))
      ((r.text.take k).length - r.status.text.length) = none := scanFrom_short hlen
  have hheader : raw.begun.parseFrom fresh rest 0 (r.text.take k).length r.status.text.length =
      some (-1, raw.begun, rest) := by
    rw [parseFrom, parseLines_none rfl hskip]
  exact receiveTwo_header_dropped hline hheader rfl (Or.inl (by decide))

/-! # The tables after two reads -/

/-- The block, when the status line of the first read is parsed. -/
def started (r : Response) (memory : List UInt8) (k : Nat) : List UInt8 :=
  r.status.parsed ++ ((r.lines.flatMap Line.text ++ cr :: lf :: r.body.text).take
    (k - r.status.text.length) ++ memory.drop k)

theorem length_take (hk : k ≤ r.text.length) : (r.text.take k).length = k :=
  List.length_take_of_le hk

theorem lineParse_started (hr : r.Good) (hstatus : r.status.text.length ≤ k)
    (hk : k ≤ r.text.length) (memory : List UInt8) :
    lineParse (r.text.take k ++ memory.drop (r.text.take k).length) 0 (r.text.take k).length 0 =
      ((r.status.text.length : Int), r.status.line, r.started memory k) := by
  rw [length_take hk, take_text hstatus, List.append_assoc, lineParse_status hr.status (by omega),
    started]

/-- The second read is put behind the first. -/
theorem store_second {front : List UInt8} (hfront : front.length = k) (hk : k ≤ r.text.length) :
    store (front ++ memory.drop k) k (r.text.drop k) =
      front ++ (r.text.drop k ++ memory.drop r.text.length) := by
  subst hfront
  have hend : front.length + (r.text.length - front.length) = r.text.length := Nat.add_sub_of_le hk
  simp [store, List.drop_append, List.drop_drop, hend, hk]

section

variable {memory' : List UInt8} {ret : Int} {p : Nat} {header : CIMFHeader}

variable (hr : r.Good) (hstatus : r.status.text.length ≤ k) (hk : k ≤ r.text.length)

include hr hstatus hk

theorem tables_finished
    (hheader : raw.begun.parseFrom fresh (r.started memory k) 0 k r.status.text.length =
      some (ret, header, memory')) (hfinished : header.chunkFinished = true) :
    (receiveTwo raw fresh memory (r.text.take k) (r.text.drop k)).map tables =
      some (r.status.line, header, memory') := by
  exact receiveTwo_header_finished (lineParse_started hr hstatus hk memory)
    (by rwa [length_take hk]) hfinished

theorem tables_dropped
    (hheader : raw.begun.parseFrom fresh (r.started memory k) 0 k r.status.text.length =
      some (ret, header, memory')) (hfinished : header.chunkFinished = false)
    (hret : ret < 0 ∨ (k : Int) ≤ ret) :
    (receiveTwo raw fresh memory (r.text.take k) (r.text.drop k)).map tables = none := by
  rw [receiveTwo_header_dropped (lineParse_started hr hstatus hk memory)
    (by rwa [length_take hk]) hfinished (by rwa [length_take hk]), Option.map_none]

variable (hheader : raw.begun.parseFrom fresh (r.started memory k) 0 k r.status.text.length =
    some ((p : Int), header, memory')) (hfinished : header.chunkFinished = false)

include hheader hfinished

theorem tables_kept (hdata : header.mpcData = some 0) (hpos : 0 < p) (hlt : p < k)
    (hends : ¬ LooksEnded memory' p) :
    (receiveTwo raw fresh memory (r.text.take k) (r.text.drop k)).map tables =
      (header.parseFrom fresh (store memory' k (r.text.drop k)) 0 r.text.length p).map
        fun t => (r.status.line, t.2.1, t.2.2) := by
  have hsize : k + (r.text.drop k).length = r.text.length := by
    rw [List.length_drop]
    omega
  have hheader' : raw.begun.parseFrom fresh (r.started memory k) 0 (r.text.take k).length
      r.status.text.length = some ((p : Int), header, memory') := by rwa [length_take hk]
  have hkept : (receiveTwo raw fresh memory (r.text.take k) (r.text.drop k)).map tables = _ :=
    receiveTwo_header_kept (lineParse_started hr hstatus hk memory) hheader' hfinished hdata
      (by omega) (by rw [length_take hk]; omega) hends
  rwa [length_take hk, hsize, Int.toNat_natCast] at hkept

theorem tables_content (hlt : p < k) (hends : LooksEnded memory' p) :
    (receiveTwo raw fresh memory (r.text.take k) (r.text.drop k)).map tables =
      if 0 < (HttpResponse.parseContent ⟨header, r.status.line, .content, p + 2, -1⟩ memory').1 then
        some (r.status.line, header, store memory' k (r.text.drop k))
      else none := by
  have hheader' : raw.begun.parseFrom fresh (r.started memory k) 0 (r.text.take k).length
      r.status.text.length = some ((p : Int), header, memory') := by rwa [length_take hk]
  have hcontent : (receiveTwo raw fresh memory (r.text.take k) (r.text.drop k)).map tables = _ :=
    receiveTwo_header_content (lineParse_started hr hstatus hk memory) hheader' hfinished
      (by omega) (by rw [length_take hk]; omega) hends
  rwa [length_take hk] at hcontent

end

end Response

end HTTPClient
