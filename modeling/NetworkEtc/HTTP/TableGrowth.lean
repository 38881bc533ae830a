-- SUMMARY: The tables of headers and chunks as they grow: which of the entries of a call are left.
import NetworkEtc.HTTP.IMF
import NetworkEtc.HTTPClient.Chunks
import NetworkEtc.Library.GrowTable

/-!
# `GetHeaders`, `GetChunks` and `GetmpoHeaders`

A call counts its entries in a variable of its own and brings the count of the table up to date
when it is through. The tables copy by the count of the table.
-/

open Library

namespace HTTPClient

instance : Nontrivial KeyValue := ⟨⟨0, 0, 0, 0⟩, ⟨1, 0, 0, 0⟩, by decide⟩

instance : Nontrivial Chunk := ⟨⟨0, 0⟩, ⟨1, 0⟩, by decide⟩

namespace CIMFHeader

def headers (header : CIMFHeader) : GrowTable KeyValue :=
  ⟨header.miHeaderSize, header.miCapHeaderSize, header.mpoHeaders⟩

def chunks (header : CIMFHeader) : GrowTable Chunk :=
  ⟨header.miChunkSize, header.miCapChunkSize, header.mpoChunks⟩

/-- The entries that the loop of `Parse` records. -/
def linesRead (buf : Nat) (len : Int) : Nat → List UInt8 → Nat → List KeyValue
  | 0, _, _ => []
  | fuel + 1, memory, p =>
    if (buf : Int) + len ≤ p then []
    else if memory.getD p 0 = cr ∧ memory.getD (p + 1) 0 = lf then []
    else
      match nextLine memory buf len p with
      | (_, none) => []
      | (memory, some (keyvalue, p)) => keyvalue :: linesRead buf len fuel memory p

/-- The entries that a `Parse` records. -/
def recordedLines (header : CIMFHeader) (memory : List UInt8) (buf : Nat) (len : Int)
    (offs : Nat) : List KeyValue :=
  if header.meChunkFinished = .header then
    ((skipCrlf memory (some (buf + offs)) (len - offs)).map
      (linesRead buf len (len.toNat + 1) memory)).getD []
  else []

/-- The entries that the loop of `ParseChunked` records, where it is defined. -/
def chunksRead (buf : Nat) (len : Int) : Nat → List UInt8 → Nat → Option (List Chunk)
  | 0, _, _ => none
  | fuel + 1, memory, pStart =>
    let remlen (p : Nat) : Int := len - (p - buf)
    match skipCrlf memory (some pStart) (remlen pStart) with
    | none => some []
    | some pStart =>
      match seekCrlf memory (some pStart) (remlen pStart) with
      | none => some []
      | some pTemp =>
        let strlength := (memory.drop pStart).take (pTemp - pStart)
        if 9 < strlength.length then none
        else do
          let nBytes ← hex2Int 0 strlength
          if nBytes = 0 then some []
          else
            let pEnd := ((pTemp + 2 : Nat) : Int) + nBytes.toInt
            if pEnd < 0 then none
            else
              (chunksRead buf len fuel (memory.set pEnd.toNat 0) (pEnd.toNat + 2)).map
                fun chunks => ⟨pTemp + 2 - buf, nBytes⟩ :: chunks

/-- The entries that a `ParseChunked` records. -/
def recordedChunks (memory : List UInt8) (buf : Nat) (len : Int) (offs : Nat) :
    Option (List Chunk) :=
  chunksRead buf len (len.toNat + 1) memory (buf + offs)

/-- Once `Parse` is through with the header lines, the table holds them behind those it held. -/
def KeepsHeaders (header : CIMFHeader) (memory : List UInt8) (buf : Nat) (len : Int)
    (offs : Nat) : Prop :=
  ∀ fresh header' memory' p,
    header.parseLines fresh memory buf len offs = some (header', memory', p) →
    header'.miHeaderSize =
        header.miHeaderSize + (header.recordedLines memory buf len offs).length ∧
      header'.headers.Holds header.headers (header.recordedLines memory buf len offs)

/-- After `ParseChunked` the table holds the chunks behind those it held. -/
def KeepsChunks (header : CIMFHeader) (memory : List UInt8) (buf : Nat) (len : Int)
    (offs : Nat) : Prop :=
  ∀ fresh ret header' memory',
    header.parseChunked fresh memory buf len offs = some (ret, header', memory') →
    ∃ entries, recordedChunks memory buf len offs = some entries ∧
      header'.miChunkSize = header.miChunkSize + entries.length ∧
      header'.chunks.Holds header.chunks entries

section

variable {header header' : CIMFHeader} {fresh : Fresh} {memory memory' : List UInt8}
  {buf fuel offs p p' nkv nkv' nChunk : Nat} {len : Int}

theorem headers_getHeaders : (header.getHeaders fresh nkv).headers =
    header.headers.grow fresh.keyValues nkv := by
  unfold getHeaders GrowTable.grow
  by_cases hroom : nkv < header.miCapHeaderSize
  · have hroom' : nkv < header.headers.capacity := hroom
    rw [if_pos hroom, if_pos hroom']
  · have hroom' : ¬ nkv < header.headers.capacity := hroom
    rw [if_neg hroom, if_neg hroom']
    rfl

theorem chunks_getChunks : (header.getChunks fresh nChunk).chunks =
    header.chunks.grow fresh.chunks nChunk := by
  unfold getChunks GrowTable.grow
  by_cases hroom : nChunk < header.miCapChunkSize
  · have hroom' : nChunk < header.chunks.capacity := hroom
    rw [if_pos hroom, if_pos hroom']
  · have hroom' : ¬ nChunk < header.chunks.capacity := hroom
    rw [if_neg hroom, if_neg hroom']
    rfl

theorem headerLoop_headers
    (h : headerLoop fresh buf len fuel header memory p nkv = (header', memory', p', nkv')) :
    header'.headers =
        header.headers.recordAll fresh.keyValues nkv (linesRead buf len fuel memory p) ∧
      nkv' = nkv + (linesRead buf len fuel memory p).length := by
  induction fuel generalizing header memory p nkv with
  | zero =>
    cases h
    exact ⟨rfl, rfl⟩
  | succ fuel ih =>
    rw [linesRead]
    by_cases hend : (buf : Int) + len ≤ p
    · rw [if_pos hend]
      rw [headerLoop] at h
      simp only [if_pos hend] at h
      cases h
      exact ⟨rfl, rfl⟩
    · by_cases hcrlf : memory.getD p 0 = cr ∧ memory.getD (p + 1) 0 = lf
      · rw [if_neg hend, if_pos hcrlf]
        rw [headerLoop] at h
        simp only [if_neg hend, if_pos hcrlf] at h
        cases h
        exact ⟨rfl, rfl⟩
      · rw [if_neg hend, if_neg hcrlf]
        rw [headerLoop_next fresh fuel header nkv (Int.not_le.mp hend) hcrlf] at h
        rcases hnext : nextLine memory buf len p with ⟨memory₁, _ | ⟨keyvalue, q⟩⟩
        · rw [hnext] at h
          cases h
          exact ⟨rfl, rfl⟩
        · rw [hnext] at h
          obtain ⟨htable, hcount⟩ := ih h
          simp only [GrowTable.recordAll, List.length_cons]
          refine ⟨htable.trans ?_, by omega⟩
          rw [GrowTable.record, ← headers_getHeaders]
          rfl

theorem chunkLoop_chunks (header : CIMFHeader) (fresh : Fresh) (fuel nChunk : Nat) :
    match chunksRead buf len fuel memory p with
    | none => chunkLoop fresh buf len fuel header memory p nChunk = none
    | some entries => ∃ ret header' memory',
      chunkLoop fresh buf len fuel header memory p nChunk = some (ret, header', memory') ∧
        header'.chunks = { header.chunks.recordAll fresh.chunks nChunk entries with
          size := nChunk + entries.length } := by
  induction fuel generalizing header memory p nChunk with
  | zero => rfl
  | succ fuel ih =>
    rw [chunksRead, chunkLoop]
    simp only
    cases skipCrlf memory (some p) (len - (p - buf)) with
    | none => exact ⟨_, _, _, rfl, rfl⟩
    | some q =>
      simp only
      cases seekCrlf memory (some q) (len - (q - buf)) with
      | none => exact ⟨_, _, _, rfl, rfl⟩
      | some pTemp =>
        simp only
        generalize (memory.drop q).take (pTemp - q) = strlength
        by_cases hlong : 9 < strlength.length
        · simp only [if_pos hlong]
        · simp only [if_neg hlong]
          cases hex2Int 0 strlength with
          | none => rfl
          | some nBytes =>
            simp only [Option.bind_eq_bind, Option.bind_some]
            by_cases hzero : nBytes = 0
            · simp only [if_pos hzero]
              exact ⟨_, _, _, rfl, rfl⟩
            · simp only [if_neg hzero]
              by_cases hneg : ((pTemp + 2 : Nat) : Int) + nBytes.toInt < 0
              · simp only [if_pos hneg]
              · simp only [if_neg hneg]
                generalize ((pTemp + 2 : Nat) : Int) + nBytes.toInt = pEnd
                have hrest := @ih (memory.set pEnd.toNat 0) (pEnd.toNat + 2)
                  { header.getChunks fresh nChunk with
                    mpoChunks := Function.update (header.getChunks fresh nChunk).mpoChunks nChunk
                      ⟨pTemp + 2 - buf, nBytes⟩ } (nChunk + 1)
                cases hread : chunksRead buf len fuel (memory.set pEnd.toNat 0)
                    (pEnd.toNat + 2) with
                | none =>
                  rw [hread] at hrest
                  exact hrest
                | some entries =>
                  rw [hread] at hrest
                  obtain ⟨ret, header', memory', hloop, htable⟩ := hrest
                  refine ⟨ret, header', memory', hloop, htable.trans ?_⟩
                  simp only [GrowTable.recordAll, List.length_cons]
                  rw [GrowTable.record, ← chunks_getChunks, Nat.add_right_comm, Nat.add_assoc]
                  rfl

theorem parseLines_headers {q : Nat}
    (h : header.parseLines fresh memory buf len offs = some (header', memory', q)) :
    header'.headers = { header.headers.recordAll fresh.keyValues header.headers.size
        (header.recordedLines memory buf len offs) with
      size := header.headers.size + (header.recordedLines memory buf len offs).length } := by
  unfold parseLines at h
  unfold recordedLines
  split at h
  · next hstate =>
    rw [if_pos hstate]
    obtain ⟨start, hskip, hloop⟩ := Option.map_eq_some_iff.mp h
    rcases hresult : headerLoop fresh buf len (len.toNat + 1) header memory start
      header.miHeaderSize with ⟨header₁, memory₁, p₁, nkv₁⟩
    rw [hresult] at hloop
    cases hloop
    obtain ⟨htable, hcount⟩ := headerLoop_headers hresult
    rw [hskip, Option.map_some, Option.getD_some]
    have hentries := congrArg GrowTable.entries htable
    have hcapacity := congrArg GrowTable.capacity htable
    simp only [headers] at hentries hcapacity ⊢
    rw [hentries, hcapacity, hcount]
  · next hstate =>
    rw [if_neg hstate]
    cases h
    rfl

theorem exists_parseLines (fresh : Fresh)
    (hne : header.recordedLines memory buf len offs ≠ []) :
    ∃ header' memory' q,
      header.parseLines fresh memory buf len offs = some (header', memory', q) := by
  unfold recordedLines at hne
  unfold parseLines
  split at hne
  · next hstate =>
    rw [if_pos hstate]
    cases hskip : skipCrlf memory (some (buf + offs)) (len - offs) with
    | none =>
      rw [hskip] at hne
      exact absurd rfl hne
    | some start => exact ⟨_, _, _, rfl⟩
  · exact absurd rfl hne

theorem keepsHeaders_iff (hsound : header.headers.Sound) :
    header.KeepsHeaders memory buf len offs ↔
      header.headers.Fits (header.recordedLines memory buf len offs).length := by
  rw [← GrowTable.holds_iff_fits hsound]
  constructor
  · intro hkeeps keyValues
    by_cases hnil : header.recordedLines memory buf len offs = []
    · rw [hnil]
      exact ⟨fun _ _ => rfl, nofun⟩
    · let fresh : Fresh := ⟨keyValues, fun _ _ => ⟨0, 0⟩⟩
      obtain ⟨header', memory', q, hparse⟩ := exists_parseLines fresh hnil
      have hholds := (hkeeps fresh header' memory' q hparse).2
      rw [parseLines_headers hparse] at hholds
      exact hholds
  · intro hholds fresh header' memory' q hparse
    have htable := parseLines_headers hparse
    refine ⟨congrArg GrowTable.size htable, ?_⟩
    rw [htable]
    exact hholds fresh.keyValues

theorem keepsChunks_iff (hsound : header.chunks.Sound) {entries : List Chunk}
    (hentries : recordedChunks memory buf len offs = some entries) :
    header.KeepsChunks memory buf len offs ↔ header.chunks.Fits entries.length := by
  rw [← GrowTable.holds_iff_fits hsound]
  have hloop : ∀ fresh, ∃ ret header' memory',
      header.parseChunked fresh memory buf len offs = some (ret, header', memory') ∧
        header'.chunks = { header.chunks.recordAll fresh.chunks header.chunks.size entries with
          size := header.chunks.size + entries.length } := by
    intro fresh
    have hround := @chunkLoop_chunks memory buf (buf + offs) len
      { header with meChunkFinished := .chunk } fresh (len.toNat + 1) header.miChunkSize
    rw [recordedChunks] at hentries
    rw [hentries] at hround
    exact hround
  constructor
  · intro hkeeps chunks
    obtain ⟨ret, header', memory', hparse, htable⟩ := hloop ⟨fun _ _ => ⟨0, 0, 0, 0⟩, chunks⟩
    obtain ⟨entries', hentries', -, hholds⟩ := hkeeps _ ret header' memory' hparse
    cases hentries.symm.trans hentries'
    rw [htable] at hholds
    exact hholds
  · intro hholds fresh ret header' memory' hparse
    obtain ⟨ret', header'', memory'', hparse', htable⟩ := hloop fresh
    cases hparse.symm.trans hparse'
    refine ⟨entries, hentries, congrArg GrowTable.size htable, ?_⟩
    rw [htable]
    exact hholds fresh.chunks

/-- The tables of a new object are sound, and stay so. -/
theorem sound_init (moHeaderBuffer : Nat → KeyValue) (moChunkBuffer : Nat → Chunk) :
    (init moHeaderBuffer moChunkBuffer).headers.Sound ∧
      (init moHeaderBuffer moChunkBuffer).chunks.Sound :=
  ⟨⟨Nat.succ_pos 15, Nat.zero_le _⟩, ⟨Nat.succ_pos 15, Nat.zero_le _⟩⟩

theorem sound_parseLines {q : Nat} (hsound : header.headers.Sound)
    (h : header.parseLines fresh memory buf len offs = some (header', memory', q)) :
    header'.headers.Sound := by
  rw [parseLines_headers h]
  exact hsound.recordAll fresh.keyValues _

theorem sound_parseChunked {ret : Int} (hsound : header.chunks.Sound)
    (h : header.parseChunked fresh memory buf len offs = some (ret, header', memory')) :
    header'.chunks.Sound := by
  have hround := @chunkLoop_chunks memory buf (buf + offs) len
    { header with meChunkFinished := .chunk } fresh (len.toNat + 1) header.miChunkSize
  unfold parseChunked at h
  cases hread : chunksRead buf len (len.toNat + 1) memory (buf + offs) with
  | none =>
    rw [hread] at hround
    cases hround.symm.trans h
  | some entries =>
    rw [hread] at hround
    obtain ⟨ret', header'', memory'', hloop, htable⟩ := hround
    cases hloop.symm.trans h
    rw [htable]
    exact hsound.recordAll fresh.chunks entries

end

end CIMFHeader

end HTTPClient

namespace HTTP.CIMFHeader

open HTTPClient

def headers (header : CIMFHeader) : GrowTable KeyValue :=
  ⟨header.miHeaderSize, header.miCapHeaderSize, header.mpoHeaders⟩

/-- The entries that the loop of the server's `Parse` records. -/
def linesRead (buf : Nat) (len : Int) : Nat → List UInt8 → Nat → List KeyValue
  | 0, _, _ => []
  | fuel + 1, memory, p =>
    if (buf : Int) + len ≤ p then []
    else
      match nextLine memory buf len p with
      | (_, none) => []
      | (memory, some (keyvalue, p)) => keyvalue :: linesRead buf len fuel memory p

def recordedLines (memory : List UInt8) (buf : Nat) (len : Int) (offs : Nat) : List KeyValue :=
  ((skipCrlf memory (some (buf + offs)) (len - offs)).map
    (linesRead buf len (len.toNat + 1) memory)).getD []

/-- After a `Parse` that has come to the header lines the table holds them behind those it held. -/
def KeepsHeaders (header : CIMFHeader) (memory : List UInt8) (buf : Nat) (len : Int)
    (offs : Nat) : Prop :=
  ∀ fresh : NewHeaders,
    (header.parse fresh memory buf len offs).2.1.miHeaderSize =
        header.miHeaderSize + (recordedLines memory buf len offs).length ∧
      (header.parse fresh memory buf len offs).2.1.headers.Holds header.headers
        (recordedLines memory buf len offs)

section

variable {header header' : CIMFHeader} {fresh : NewHeaders} {memory memory' : List UInt8}
  {buf fuel offs p p' nkv nkv' : Nat} {len : Int}

theorem headers_getmpoHeaders : (header.getmpoHeaders fresh nkv).headers =
    header.headers.grow fresh nkv := by
  unfold getmpoHeaders GrowTable.grow
  by_cases hroom : nkv < header.miCapHeaderSize
  · have hroom' : nkv < header.headers.capacity := hroom
    rw [if_pos hroom, if_pos hroom']
  · have hroom' : ¬ nkv < header.headers.capacity := hroom
    rw [if_neg hroom, if_neg hroom']
    rfl

theorem headerLoop_headers
    (h : headerLoop fresh buf len fuel header memory p nkv = (header', memory', p', nkv')) :
    header'.headers = header.headers.recordAll fresh nkv (linesRead buf len fuel memory p) ∧
      nkv' = nkv + (linesRead buf len fuel memory p).length := by
  induction fuel generalizing header memory p nkv with
  | zero =>
    cases h
    exact ⟨rfl, rfl⟩
  | succ fuel ih =>
    rw [linesRead]
    by_cases hend : (buf : Int) + len ≤ p
    · rw [if_pos hend]
      rw [headerLoop_end hend] at h
      cases h
      exact ⟨rfl, rfl⟩
    · rw [if_neg hend]
      rw [headerLoop_next fresh fuel header nkv (Int.not_le.mp hend)] at h
      rcases hnext : nextLine memory buf len p with ⟨memory₁, _ | ⟨keyvalue, q⟩⟩
      · rw [hnext] at h
        cases h
        exact ⟨rfl, rfl⟩
      · rw [hnext] at h
        obtain ⟨htable, hcount⟩ := ih h
        simp only [GrowTable.recordAll, List.length_cons]
        refine ⟨htable.trans ?_, by omega⟩
        rw [GrowTable.record, ← headers_getmpoHeaders]
        rfl

theorem parse_headers (header : CIMFHeader) (fresh : NewHeaders) (memory : List UInt8) (buf : Nat)
    (len : Int) (offs : Nat) : (header.parse fresh memory buf len offs).2.1.headers =
      { header.headers.recordAll fresh header.headers.size (recordedLines memory buf len offs) with
        size := header.headers.size + (recordedLines memory buf len offs).length } := by
  unfold recordedLines
  cases hskip : skipCrlf memory (some (buf + offs)) (len - offs) with
  | none =>
    rw [parse_none hskip]
    rfl
  | some start =>
    rcases hloop : headerLoop fresh buf len (len.toNat + 1) { header with mpcData := some buf }
      memory start header.miHeaderSize with ⟨header₁, memory₁, p₁, nkv₁⟩
    obtain ⟨htable, hcount⟩ := headerLoop_headers hloop
    rw [parse_some hskip hloop, Option.map_some, Option.getD_some]
    have hentries := congrArg GrowTable.entries htable
    have hcapacity := congrArg GrowTable.capacity htable
    simp only [headers] at hentries hcapacity ⊢
    rw [hentries, hcapacity, hcount]

theorem sound_init (moHeaderBuffer : Nat → KeyValue) : (init moHeaderBuffer).headers.Sound :=
  ⟨Nat.succ_pos 15, Nat.zero_le _⟩

theorem sound_parse (hsound : header.headers.Sound) :
    (header.parse fresh memory buf len offs).2.1.headers.Sound := by
  rw [parse_headers]
  exact hsound.recordAll fresh _

theorem keepsHeaders_iff (hsound : header.headers.Sound) :
    header.KeepsHeaders memory buf len offs ↔
      header.headers.Fits (recordedLines memory buf len offs).length := by
  rw [← GrowTable.holds_iff_fits hsound]
  constructor
  · intro hkeeps fresh
    have hholds := (hkeeps fresh).2
    rw [parse_headers] at hholds
    exact hholds
  · intro hholds fresh
    have htable := header.parse_headers fresh memory buf len offs
    refine ⟨congrArg GrowTable.size htable, ?_⟩
    rw [htable]
    exact hholds fresh

end

end HTTP.CIMFHeader

namespace HTTP

open HTTPClient

/-- Each of the three tables is left with what a call records, whatever new memory holds, exactly if
it has room for it, or is full of counted entries to begin with and has to be doubled once. -/
theorem tables_kept_iff {header : HTTPClient.CIMFHeader} {request : CIMFHeader}
    (hheaders : header.headers.Sound) (hchunks : header.chunks.Sound)
    (hrequest : request.headers.Sound) (memory : List UInt8) (buf : Nat) (len : Int) (offs : Nat) :
    (header.KeepsHeaders memory buf len offs ↔
      header.headers.Fits (header.recordedLines memory buf len offs).length) ∧
    (∀ entries, HTTPClient.CIMFHeader.recordedChunks memory buf len offs = some entries →
      (header.KeepsChunks memory buf len offs ↔ header.chunks.Fits entries.length)) ∧
    (request.KeepsHeaders memory buf len offs ↔
      request.headers.Fits (CIMFHeader.recordedLines memory buf len offs).length) :=
  ⟨HTTPClient.CIMFHeader.keepsHeaders_iff hheaders,
    fun _ => HTTPClient.CIMFHeader.keepsChunks_iff hchunks,
    CIMFHeader.keepsHeaders_iff hrequest⟩

/-- Seventeen lines `a:b` and an empty one. -/
def seventeen : List UInt8 := (List.replicate 17 [97, 58, 98, 13, 10]).flatten ++ [13, 10]

/-- The first sixteen are gone. -/
theorem seventeen_lost :
    ¬ (HTTPClient.CIMFHeader.init (fun _ => ⟨0, 0, 0, 0⟩) fun _ => ⟨0, 0⟩).KeepsHeaders
        seventeen 0 87 0 ∧
      ¬ (CIMFHeader.init fun _ => ⟨0, 0, 0, 0⟩).KeepsHeaders seventeen 0 87 0 := by
  have hsound := HTTPClient.CIMFHeader.sound_init (fun _ => ⟨0, 0, 0, 0⟩) fun _ => ⟨0, 0⟩
  constructor
  · rw [HTTPClient.CIMFHeader.keepsHeaders_iff hsound.1]
    unfold GrowTable.Fits
    decide
  · rw [CIMFHeader.keepsHeaders_iff (CIMFHeader.sound_init _)]
    unfold GrowTable.Fits
    decide

theorem tables_kept_iff_seventeen :
    ¬ (CIMFHeader.init fun _ => ⟨0, 0, 0, 0⟩).KeepsHeaders seventeen 0 87 0 ∧
      (HTTPClient.CIMFHeader.init (fun _ => ⟨0, 0, 0, 0⟩) fun _ => ⟨0, 0⟩).KeepsChunks
        [49, 13, 10, 97, 13, 10, 48, 13, 10] 0 9 0 := by
  have hsound := HTTPClient.CIMFHeader.sound_init (fun _ => ⟨0, 0, 0, 0⟩) fun _ => ⟨0, 0⟩
  have hrequest := CIMFHeader.sound_init fun _ => ⟨0, 0, 0, 0⟩
  have hread : HTTPClient.CIMFHeader.recordedChunks [49, 13, 10, 97, 13, 10, 48, 13, 10] 0 9 0 =
      some [⟨3, 1⟩] := by decide
  constructor
  · rw [(tables_kept_iff hsound.1 hsound.2 hrequest seventeen 0 87 0).2.2]
    unfold GrowTable.Fits
    decide
  · exact ((tables_kept_iff hsound.1 hsound.2 hrequest _ 0 9 0).2.1 _ hread).mpr
      (Or.inl (by decide))

end HTTP
