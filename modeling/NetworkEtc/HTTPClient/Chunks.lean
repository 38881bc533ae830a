-- SUMMARY: Bodies in chunks: when they are announced, and what the parser does with them.
import NetworkEtc.HTTPClient.Lines

/-!
# Chunks

A body in chunks is a sequence of chunks and a last one of size zero.
-/

namespace HTTPClient

open Library Library.Printf CIMFHeader

/-- `GetField` takes the name of the line for the key. -/
def Line.isNamed (key : List UInt8) (line : Line) : Bool :=
  equalNoCase line.name.length key line.name

/-- The lines announce a body in chunks. -/
def announced (lines : List Line) : Bool :=
  match lines.find? (Line.isNamed transferEncoding) with
  | none => false
  | some line => line.value.take 7 = chunked

/-- The header table is that of the lines, which begin where `pre` ends. -/
structure Tabled (header : CIMFHeader) (pre : List UInt8) (lines : List Line) : Prop where
  size : header.miHeaderSize = lines.length
  data : header.mpcData = some 0
  entries : ∃ mpoHeaders, header.mpoHeaders = enter mpoHeaders 0 pre.length lines

section

variable {header : CIMFHeader} {pre rest memory : List UInt8} {lines before after : List Line}
  {line : Line} {fresh : Fresh} {len : Int} {offs p : Nat}

theorem equalNoCase_append (s t rest : List UInt8) :
    equalNoCase t.length s (t ++ rest) = equalNoCase t.length s t := by
  induction t generalizing s with
  | nil => rfl
  | cons c t ih =>
    simp only [List.length_cons, List.cons_append, equalNoCase, List.headD_cons, List.tail_cons,
      ih]
    rfl

/-- What the table holds of a line. -/
theorem Tabled.entry (h : Tabled header pre (before ++ line :: after)) :
    header.mpoHeaders before.length =
      line.entry (pre.length + (before.flatMap Line.text).length) := by
  obtain ⟨mpoHeaders, hentries⟩ := h.entries
  have hentry := enter_at mpoHeaders 0 pre.length before line after
  rw [hentries, ← hentry, Nat.zero_add]

theorem Tabled.name (h : Tabled header pre (before ++ line :: after))
    (hmemory : memory = pre ++ ((before ++ line :: after).flatMap Line.parsed ++ rest))
    (key : List UInt8) :
    equalNoCase (header.mpoHeaders before.length).keyLength key
      (memory.drop (0 + (header.mpoHeaders before.length).keyStart)) = line.isNamed key := by
  have hstart : pre.length + (before.flatMap Line.text).length =
      (pre ++ before.flatMap Line.parsed).length := by rw [List.length_append, length_parsed]
  have hmemory' : memory = pre ++ before.flatMap Line.parsed ++ (line.name ++ 0 :: (line.gap ++
      (line.value ++ 0 :: lf :: (after.flatMap Line.parsed ++ rest)))) := by
    simp [hmemory, Line.parsed]
  rw [h.entry, Line.entry, Nat.zero_add, hstart, hmemory', List.drop_left]
  exact equalNoCase_append ..

/-- The value in the table ends with a zero. -/
theorem Tabled.value (h : Tabled header pre (before ++ line :: after))
    (hmemory : memory = pre ++ ((before ++ line :: after).flatMap Line.parsed ++ rest)) :
    ∃ behind, memory.drop (0 + (header.mpoHeaders before.length).valueStart) =
      line.value ++ 0 :: behind := by
  have hstart : pre.length + (before.flatMap Line.text).length + line.name.length + 1 +
      line.gap.length = (pre ++ before.flatMap Line.parsed ++ line.name ++ 0 :: line.gap).length := by
    simp only [List.length_append, length_parsed, List.length_cons]
    omega
  have hmemory' : memory = pre ++ before.flatMap Line.parsed ++ line.name ++ 0 :: line.gap ++
      (line.value ++ 0 :: lf :: (after.flatMap Line.parsed ++ rest)) := by
    simp [hmemory, Line.parsed]
  refine ⟨lf :: (after.flatMap Line.parsed ++ rest), ?_⟩
  rw [h.entry, Line.entry, Nat.zero_add, hstart, hmemory', List.drop_left]

/-- What `GetField` finds in the table: the value of the first line of that name. -/
theorem Tabled.getField (h : Tabled header pre lines)
    (hmemory : memory = pre ++ (lines.flatMap Line.parsed ++ rest)) (key : List UInt8) :
    lines.find? (Line.isNamed key) = none ∧ header.getField memory key = none ∨
      ∃ line ct behind, lines.find? (Line.isNamed key) = some line ∧
        header.getField memory key = some ct ∧ memory.drop ct = line.value ++ 0 :: behind := by
  unfold CIMFHeader.getField
  rw [h.data, Option.bind_some, h.size]
  have hname : ∀ i line, lines[i]? = some line →
      equalNoCase (header.mpoHeaders i).keyLength key
        (memory.drop (0 + (header.mpoHeaders i).keyStart)) = line.isNamed key := by
    intro i line hi
    obtain ⟨before, after, rfl, rfl⟩ := split_of_getElem? hi
    exact h.name hmemory key
  cases hfind : lines.find? (Line.isNamed key) with
  | none =>
    refine Or.inl ⟨rfl, Option.map_eq_none_iff.mpr (List.find?_range_eq_none.mpr fun i hi => ?_)⟩
    rw [hname i lines[i] (List.getElem?_eq_getElem hi)]
    simpa using List.find?_eq_none.mp hfind _ (List.getElem_mem hi)
  | some line =>
    obtain ⟨hline, before, after, rfl, hbefore⟩ := List.find?_eq_some_iff_append.mp hfind
    have hsome : ((List.range (before ++ line :: after).length).find? fun i =>
        equalNoCase (header.mpoHeaders i).keyLength key
          (memory.drop (0 + (header.mpoHeaders i).keyStart))) = some before.length := by
      apply List.find?_range_eq_some.mpr
      refine ⟨?_, ?_, fun j hj => ?_⟩
      · rw [h.name hmemory]
        exact hline
      · simp
      · have hj' : (before ++ line :: after)[j]? = some before[j] := by
          rw [List.getElem?_append_left hj, List.getElem?_eq_getElem hj]
        rw [hname j _ hj']
        exact hbefore _ (List.getElem_mem hj)
    obtain ⟨behind, hvalue⟩ := h.value hmemory
    exact Or.inr ⟨line, _, behind, rfl, by rw [hsome, Option.map_some], hvalue⟩

/-- A zero is no part of `"chunked"`. -/
theorem take_chunked (value behind : List UInt8) :
    (value ++ 0 :: behind).take 7 = chunked ↔ value.take 7 = chunked := by
  rcases Nat.lt_or_ge value.length 7 with hlt | hge
  · constructor
    · intro htake
      have hzero : (0 : UInt8) ∈ chunked := by
        rw [← htake, List.take_append]
        obtain ⟨n, hn⟩ := Nat.exists_eq_add_of_lt hlt
        apply List.mem_append_right
        rw [show 7 - value.length = n + 1 by omega, List.take_succ_cons]
        exact List.mem_cons_self
      exact absurd hzero (by decide)
    · intro htake
      have hlength := congrArg List.length htake
      rw [List.length_take] at hlength
      have hseven : chunked.length = 7 := rfl
      omega
  · rw [List.take_append_of_le_length hge]

/-- What `Parse` finds in the table. -/
theorem Tabled.getField_announced (h : Tabled header pre lines)
    (hmemory : memory = pre ++ (lines.flatMap Line.parsed ++ rest)) :
    (header.getField memory transferEncoding).any (fun ct => (memory.drop ct).take 7 = chunked) =
      announced lines := by
  unfold announced
  rcases h.getField hmemory transferEncoding with ⟨hfind, hnone⟩ |
    ⟨line, ct, behind, hfind, hsome, hvalue⟩
  · rw [hfind, hnone]
    rfl
  · rw [hfind, hsome, Option.any_some]
    simp only [hvalue, take_chunked]

/-- A body that is not announced is not looked at. -/
theorem Tabled.parseBody_plain (h : Tabled header pre lines)
    (hmemory : memory = pre ++ (lines.flatMap Line.parsed ++ rest))
    (hplain : announced lines = false) :
    header.parseBody fresh memory 0 len offs p = some ((p : Int), header, memory) := by
  have hfield := (h.getField_announced hmemory).trans hplain
  unfold CIMFHeader.parseBody
  split
  · simp
  · next ct hct =>
    rw [hct, Option.any_some] at hfield
    rw [if_neg (by simpa using hfield)]
    simp

theorem Tabled.parseBody_announced (h : Tabled header pre lines)
    (hmemory : memory = pre ++ (lines.flatMap Line.parsed ++ rest))
    (hchunked : announced lines = true) :
    header.parseBody fresh memory 0 len offs p =
      (header.parseChunked fresh memory 0 len p).map fun r =>
        ((if (p : Int) < r.1 then r.1 - offs else r.1 : Int), r.2) := by
  have hfield := (h.getField_announced hmemory).trans hchunked
  unfold CIMFHeader.parseBody
  split
  · next hnone =>
    rw [hnone] at hfield
    cases hfield
  · next ct hct =>
    rw [hct, Option.any_some] at hfield
    rw [if_pos (of_decide_eq_true hfield)]
    simp only [Nat.sub_zero, Int.natCast_zero, sub_zero]
    cases header.parseChunked fresh memory 0 len p with
    | none => rfl
    | some r =>
      simp only [Option.bind_eq_bind, Option.bind_some, Option.map_some]
      split
      · rfl
      · rfl

end

/-! # Sizes -/

def isHexDigit (c : UInt8) : Bool := 48 ≤ c ∧ c ≤ 57 ∨ 65 ≤ c ∧ c ≤ 70 ∨ 97 ≤ c ∧ c ≤ 102

/-- The number that hexadecimal digits stand for. -/
def hexValue (size : List UInt8) : Nat := size.foldl (fun n c => 16 * n + (hexTable c).getD 0) 0

/-- A size that `strlength` has room for. -/
structure IsSize (size : List UInt8) : Prop where
  ne_nil : size ≠ []
  digits : ∀ c ∈ size, isHexDigit c = true
  length : size.length ≤ 9

theorem hexTable_digit {c : UInt8} (h : isHexDigit c = true) : ∃ d < 16, hexTable c = some d := by
  have hle : ∀ {a b : UInt8}, a ≤ b ↔ a.toNat ≤ b.toNat := UInt8.le_iff_toNat_le
  have hlt : ∀ {a b : UInt8}, a < b ↔ a.toNat < b.toNat := UInt8.lt_iff_toNat_lt
  simp only [isHexDigit, decide_eq_true_eq, hle] at h
  change 48 ≤ c.toNat ∧ c.toNat ≤ 57 ∨ 65 ≤ c.toNat ∧ c.toNat ≤ 70 ∨
    97 ≤ c.toNat ∧ c.toNat ≤ 102 at h
  unfold hexTable
  simp only [hle, hlt]
  change ∃ d < 16, (if 102 < c.toNat then none
    else if 48 ≤ c.toNat ∧ c.toNat ≤ 57 then some (c.toNat - 48)
    else if 65 ≤ c.toNat ∧ c.toNat ≤ 70 then some (c.toNat - 55)
    else if 97 ≤ c.toNat then some (c.toNat - 87) else some 0) = some d
  rw [if_neg (by omega)]
  split
  · exact ⟨_, by omega, rfl⟩
  · split
    · exact ⟨_, by omega, rfl⟩
    · rw [if_pos (by omega)]
      exact ⟨_, by omega, rfl⟩

theorem isHexDigit_ne {c e : UInt8} (h : isHexDigit c = true) (he : isHexDigit e = false) :
    c ≠ e := by
  rintro rfl
  rw [h] at he
  cases he

/-- Another digit. -/
theorem hexDigit_or (m : Nat) {d : Nat} (hd : d < 16) :
    (Int32.ofNat m <<< 4) ||| Int32.ofNat d = Int32.ofNat (16 * m + d) := by
  apply Int32.toBitVec.inj
  have hshift : (Int32.ofNat m <<< 4).toBitVec = BitVec.ofNat 32 m <<< 4 := by
    rw [Int32.toBitVec_shiftLeft]
    rfl
  rw [Int32.toBitVec_or, hshift]
  apply BitVec.eq_of_toNat_eq
  change (m % 2 ^ 32) <<< 4 % 2 ^ 32 ||| d % 2 ^ 32 = (16 * m + d) % 2 ^ 32
  have hleft : (m % 2 ^ 32) <<< 4 % 2 ^ 32 = (m % 2 ^ 28) <<< 4 := by
    simp only [Nat.shiftLeft_eq]
    omega
  rw [hleft, Nat.mod_eq_of_lt (a := d) (by omega), ← Nat.shiftLeft_add_eq_or_of_lt (by omega),
    Nat.shiftLeft_eq]
  omega

theorem hex2Int_eq {size : List UInt8} (h : ∀ c ∈ size, isHexDigit c = true) :
    hex2Int 0 size = some (Int32.ofNat (hexValue size)) := by
  have hfold : ∀ m, hex2Int (Int32.ofNat m) size =
      some (Int32.ofNat (size.foldl (fun n c => 16 * n + (hexTable c).getD 0) m)) := by
    induction size with
    | nil => exact fun m => rfl
    | cons c size ih =>
      intro m
      obtain ⟨d, hd, hc⟩ := hexTable_digit (h c List.mem_cons_self)
      rw [hex2Int, hc, Option.bind_some, hexDigit_or m hd,
        ih fun e he => h e (List.mem_cons_of_mem c he), List.foldl_cons, hc, Option.getD_some]
  exact hfold 0

/-! # The chunks of a body -/

/-- A chunk: its size in hexadecimal, and its data. -/
structure ChunkText where
  size : List UInt8
  data : List UInt8
  deriving DecidableEq

namespace ChunkText

def text (chunk : ChunkText) : List UInt8 := chunk.size ++ cr :: lf :: (chunk.data ++ [cr, lf])

/-- What is recorded of a chunk whose size begins at `start`. -/
def entry (chunk : ChunkText) (start : Nat) : Chunk :=
  ⟨start + chunk.size.length + 2, Int32.ofNat chunk.data.length⟩

structure Good (chunk : ChunkText) : Prop where
  size : IsSize chunk.size
  value : hexValue chunk.size = chunk.data.length
  data_ne_nil : chunk.data ≠ []
  int : chunk.data.length < 2 ^ 31

end ChunkText

/-- A body in chunks: behind the last chunk stands whatever may stand there. -/
structure ChunkedText where
  chunks : List ChunkText
  last : List UInt8
  trailer : List UInt8
  deriving DecidableEq

namespace ChunkedText

def text (body : ChunkedText) : List UInt8 :=
  body.chunks.flatMap ChunkText.text ++ (body.last ++ cr :: lf :: body.trailer)

structure Good (body : ChunkedText) : Prop where
  chunks : ∀ chunk ∈ body.chunks, chunk.Good
  last : IsSize body.last
  value : hexValue body.last = 0

end ChunkedText

/-! # Rounds -/

/-- What a round of `ParseChunked` records: a chunk, or nothing, and then there is no other. -/
def nextChunk (memory : List UInt8) (len : Int) (pStart : Nat) : Option (Option Chunk) :=
  match skipCrlf memory (some pStart) (len - pStart) with
  | none => some none
  | some pStart =>
    match seekCrlf memory (some pStart) (len - pStart) with
    | none => some none
    | some pTemp =>
      let strlength := (memory.drop pStart).take (pTemp - pStart)
      if 9 < strlength.length then none
      else (hex2Int 0 strlength).map fun nBytes =>
        if nBytes = 0 then none else some ⟨pTemp + 2, nBytes⟩

section

variable {header : CIMFHeader} {memory rest size : List UInt8} {fresh : Fresh} {len : Int}
  {fuel nChunk p q : Nat} {chunk : Chunk}

/-- What a round does: it is undefined, or the last one, or it records a chunk, whose end may be in
front of the memory. -/
theorem chunkLoop_round (header : CIMFHeader) (fresh : Fresh) (memory : List UInt8) (len : Int)
    (fuel p nChunk : Nat) :
    match nextChunk memory len p with
    | none => chunkLoop fresh 0 len (fuel + 1) header memory p nChunk = none
    | some none =>
      ∃ ret meChunkFinished, chunkLoop fresh 0 len (fuel + 1) header memory p nChunk =
        some (ret, { header with meChunkFinished, miChunkSize := nChunk }, memory)
    | some (some chunk) =>
      chunkLoop fresh 0 len (fuel + 1) header memory p nChunk =
        if (chunk.start : Int) + chunk.length.toInt < 0 then none
        else
          chunkLoop fresh 0 len fuel
            { header.getChunks fresh nChunk with
              mpoChunks := Function.update (header.getChunks fresh nChunk).mpoChunks nChunk chunk }
            (memory.set ((chunk.start : Int) + chunk.length.toInt).toNat 0)
            (((chunk.start : Int) + chunk.length.toInt).toNat + 2) (nChunk + 1) := by
  rw [nextChunk, chunkLoop]
  simp only [Int.natCast_zero, sub_zero]
  cases skipCrlf memory (some p) (len - p) with
  | none => exact ⟨_, header.meChunkFinished, rfl⟩
  | some q =>
    simp only
    cases seekCrlf memory (some q) (len - q) with
    | none => exact ⟨_, header.meChunkFinished, rfl⟩
    | some pTemp =>
      simp only
      generalize (memory.drop q).take (pTemp - q) = strlength
      by_cases hlong : 9 < strlength.length
      · simp only [if_pos hlong]
      · simp only [if_neg hlong]
        cases hex2Int 0 strlength with
        | none => rfl
        | some nBytes =>
          simp only [Option.map_some, Option.bind_eq_bind, Option.bind_some, Nat.sub_zero]
          by_cases hzero : nBytes = 0
          · simp only [if_pos hzero]
            exact ⟨_, .chunkd, rfl⟩
          · simp only [if_neg hzero]

theorem chunkLoop_none (h : nextChunk memory len p = none) :
    chunkLoop fresh 0 len (fuel + 1) header memory p nChunk = none := by
  have hround := chunkLoop_round header fresh memory len fuel p nChunk
  rwa [h] at hround

theorem chunkLoop_last (h : nextChunk memory len p = some none) :
    ∃ ret meChunkFinished, chunkLoop fresh 0 len (fuel + 1) header memory p nChunk =
      some (ret, { header with meChunkFinished, miChunkSize := nChunk }, memory) := by
  have hround := chunkLoop_round header fresh memory len fuel p nChunk
  rwa [h] at hround

theorem chunkLoop_record (h : nextChunk memory len p = some (some chunk)) :
    chunkLoop fresh 0 len (fuel + 1) header memory p nChunk =
      if (chunk.start : Int) + chunk.length.toInt < 0 then none
      else
        chunkLoop fresh 0 len fuel
          { header.getChunks fresh nChunk with
            mpoChunks := Function.update (header.getChunks fresh nChunk).mpoChunks nChunk chunk }
          (memory.set ((chunk.start : Int) + chunk.length.toInt).toNat 0)
          (((chunk.start : Int) + chunk.length.toInt).toNat + 2) (nChunk + 1) := by
  have hround := chunkLoop_round header fresh memory len fuel p nChunk
  rwa [h] at hround

/-- Line ends in front of a size are passed over. -/
theorem chunkLoop_skip (h : skipCrlf memory (some p) (len - p) = some q) :
    chunkLoop fresh 0 len (fuel + 1) header memory p nChunk =
      chunkLoop fresh 0 len (fuel + 1) header memory q nChunk := by
  obtain ⟨-, -, -, hzero, hstop, -⟩ := scanFrom_eq_some_iff.mp h
  rw [chunkLoop, chunkLoop]
  simp only [Int.natCast_zero, sub_zero, h]
  rcases lt_or_ge (len - q) 2 with hlt | hle
  · have hseek : seekCrlf memory (some q) (len - q) = none := scanFrom_short hlt
    have hskip : skipCrlf memory (some q) (len - q) = none := scanFrom_short hlt
    rw [hseek, hskip]
  · have hskip : skipCrlf memory (some q) (len - q) = some q :=
      scanFrom_eq_some_iff.mpr ⟨hle, le_rfl, by omega, hzero, hstop, fun j hj hlt =>
        absurd hj (Nat.not_le.mpr hlt)⟩
    rw [hskip]

/-! # Chunks that are read -/

/-- A size is read where it begins. -/
theorem skipCrlf_size (hsize : IsSize size) (hdrop : memory.drop p = size ++ rest)
    (hlen : 2 ≤ len - p) : skipCrlf memory (some p) (len - p) = some p := by
  obtain ⟨c, size', rfl⟩ := List.exists_cons_of_ne_nil hsize.ne_nil
  have hdigit := hsize.digits c List.mem_cons_self
  have hget : memory.getD p 0 = c := by
    have hget := congrArg (List.getD · 0 0) hdrop
    simpa [List.getD_eq_getElem?_getD] using hget
  apply skipCrlf_here _ hlen
  rw [hget]
  exact ⟨isHexDigit_ne hdigit rfl, isHexDigit_ne hdigit rfl, isHexDigit_ne hdigit rfl⟩

/-- It ends where the line ends. -/
theorem seekCrlf_size (hsize : IsSize size) (hdrop : memory.drop p = size ++ cr :: rest)
    (hlen : (size.length : Int) < len - p) :
    seekCrlf memory (some p) (len - p) = some (p + size.length) := by
  have hpos := List.length_pos_of_ne_nil hsize.ne_nil
  refine scanFrom_append (b := rest) hdrop (fun x hx => ?_) (by decide) (by simp) (by omega) hlen
  have hx := hsize.digits x hx
  refine ⟨isHexDigit_ne hx rfl, fun y hy => ?_⟩
  rcases List.mem_append.mp hy with hy | hy
  · simpa using ⟨isHexDigit_ne hx (e := cr) rfl, isHexDigit_ne (hsize.digits y hy) (e := lf) rfl⟩
  · rw [List.mem_singleton.mp hy]
    simpa using ⟨isHexDigit_ne hx (e := cr) rfl, (by decide : cr ≠ lf)⟩

theorem int32_ofNat_eq_zero {n : Nat} (hn : n < 2 ^ 31) : Int32.ofNat n = 0 ↔ n = 0 := by
  constructor
  · intro heq
    have hint := congrArg Int32.toInt heq
    rw [Int32.toInt_ofNat_of_lt hn] at hint
    simpa using hint
  · rintro rfl
    rfl

/-- The chunk that a round records when its size is read. -/
theorem nextChunk_text {chunk : ChunkText} (hchunk : chunk.Good)
    (hdrop : memory.drop p = chunk.size ++ cr :: rest)
    (hlen : (chunk.size.length : Int) < len - p) :
    nextChunk memory len p = some (some (chunk.entry p)) := by
  have hpos := List.length_pos_of_ne_nil hchunk.size.ne_nil
  have hdata := List.length_pos_of_ne_nil hchunk.data_ne_nil
  have hnonzero : Int32.ofNat chunk.data.length ≠ 0 := by
    rw [ne_eq, int32_ofNat_eq_zero hchunk.int]
    omega
  rw [nextChunk, skipCrlf_size hchunk.size hdrop (by omega)]
  simp only [seekCrlf_size hchunk.size hdrop hlen, hdrop, Nat.add_sub_cancel_left, List.take_left,
    if_neg (Nat.not_lt.mpr hchunk.size.length), hex2Int_eq hchunk.size.digits, hchunk.value,
    Option.map_some, if_neg hnonzero]
  rfl

/-- The last size ends the chunks. -/
theorem chunkLoop_zero (header : CIMFHeader) (fresh : Fresh) (fuel nChunk : Nat)
    (hsize : IsSize size) (hvalue : hexValue size = 0)
    (hdrop : memory.drop p = size ++ cr :: rest) (hlen : (size.length : Int) < len - p) :
    ∃ ret, chunkLoop fresh 0 len (fuel + 1) header memory p nChunk =
      some (ret, { header with meChunkFinished := .chunkd, miChunkSize := nChunk }, memory) := by
  have hpos := List.length_pos_of_ne_nil hsize.ne_nil
  have hskip : skipCrlf memory (some p) (len - p) = some p :=
    skipCrlf_size hsize hdrop (by omega)
  rw [chunkLoop]
  simp only [Int.natCast_zero, sub_zero, hskip, seekCrlf_size hsize hdrop hlen, hdrop,
    Nat.add_sub_cancel_left, List.take_left, if_neg (Nat.not_lt.mpr hsize.length), hex2Int_eq hsize.digits, hvalue]
  exact ⟨_, rfl⟩

/-- A size of which the end is not there yet stops the loop. -/
theorem chunkLoop_stop (hskip : 2 ≤ len - p → skipCrlf memory (some p) (len - p) = some p)
    (hseek : seekCrlf memory (some p) (len - p) = none) :
    chunkLoop fresh 0 len (fuel + 1) header memory p nChunk =
      some ((p : Int), { header with miChunkSize := nChunk }, memory) := by
  rw [chunkLoop]
  simp only [Int.natCast_zero, sub_zero]
  rcases lt_or_ge (len - p) 2 with hlt | hle
  · have hnone : skipCrlf memory (some p) (len - p) = none := scanFrom_short hlt
    rw [hnone]
  · rw [hskip hle]
    simp only [hseek]

namespace ChunkText

theorem length_text (chunk : ChunkText) :
    chunk.text.length = chunk.size.length + chunk.data.length + 4 := by
  simp only [text, List.length_append, List.length_cons, List.length_nil]
  omega

/-- Where the data ends. -/
theorem Good.end_eq {chunk : ChunkText} (h : chunk.Good) (start : Nat) :
    ((chunk.entry start).start : Int) + (chunk.entry start).length.toInt =
      (start + chunk.text.length - 2 : Nat) := by
  have hlength := chunk.length_text
  simp only [entry, Int32.toInt_ofNat_of_lt h.int]
  omega

end ChunkText

/-- The chunk table with the entries of some chunks, the first of which begins at `start`. -/
def enterChunks : (Nat → Chunk) → Nat → Nat → List ChunkText → Nat → Chunk
  | mpoChunks, _, _, [] => mpoChunks
  | mpoChunks, nChunk, start, chunk :: chunks =>
    enterChunks (Function.update mpoChunks nChunk (chunk.entry start)) (nChunk + 1)
      (start + chunk.text.length) chunks

theorem enterChunks_of_lt {i : Nat} (hi : i < nChunk) (mpoChunks : Nat → Chunk) (start : Nat)
    (chunks : List ChunkText) : enterChunks mpoChunks nChunk start chunks i = mpoChunks i := by
  induction chunks generalizing mpoChunks nChunk start with
  | nil => rfl
  | cons chunk chunks ih =>
    rw [enterChunks, ih (Nat.lt_succ_of_lt hi) _ _, Function.update_of_ne hi.ne]

theorem enterChunks_append (mpoChunks : Nat → Chunk) (nChunk start : Nat)
    (chunks chunks' : List ChunkText) :
    enterChunks mpoChunks nChunk start (chunks ++ chunks') =
      enterChunks (enterChunks mpoChunks nChunk start chunks) (nChunk + chunks.length)
        (start + (chunks.flatMap ChunkText.text).length) chunks' := by
  induction chunks generalizing mpoChunks nChunk start with
  | nil => rfl
  | cons chunk chunks ih =>
    simp only [List.cons_append, enterChunks, ih, List.length_cons, List.flatMap_cons,
      List.length_append]
    congr 1
    · omega
    · omega

theorem enterChunks_at (mpoChunks : Nat → Chunk) (nChunk start : Nat) (before : List ChunkText)
    (chunk : ChunkText) (after : List ChunkText) :
    enterChunks mpoChunks nChunk start (before ++ chunk :: after) (nChunk + before.length) =
      chunk.entry (start + (before.flatMap ChunkText.text).length) := by
  rw [enterChunks_append, enterChunks, enterChunks_of_lt (Nat.lt_succ_self _),
    Function.update_self]

/-- If there is room, a chunk is recorded and the loop goes on behind it. -/
theorem chunkLoop_chunk {chunk : ChunkText} (hchunk : chunk.Good)
    (hnext : nextChunk memory len p = some (some (chunk.entry q)))
    (hroom : nChunk < header.miCapChunkSize) :
    chunkLoop fresh 0 len (fuel + 1) header memory p nChunk =
      chunkLoop fresh 0 len fuel
        { header with mpoChunks := Function.update header.mpoChunks nChunk (chunk.entry q) }
        (memory.set (q + chunk.text.length - 2) 0) (q + chunk.text.length) (nChunk + 1) := by
  have hlength := chunk.length_text
  rw [chunkLoop_record hnext, hchunk.end_eq, if_neg (by omega), Int.toNat_natCast]
  simp only [getChunks, if_pos hroom]
  congr 1
  omega

/-- All chunks are recorded, up to the last one. Nothing in front of them is touched. -/
theorem chunkLoop_chunks (header : CIMFHeader) (fresh : Fresh) (fuel nChunk : Nat)
    {chunks : List ChunkText} {last : List UInt8}
    (hchunks : ∀ chunk ∈ chunks, chunk.Good) (hlast : IsSize last) (hvalue : hexValue last = 0)
    (hdrop : memory.drop p = chunks.flatMap ChunkText.text ++ (last ++ cr :: rest))
    (hroom : nChunk + chunks.length ≤ header.miCapChunkSize)
    (hlen : ((chunks.flatMap ChunkText.text).length : Int) + last.length < len - p) :
    ∃ ret memory',
      chunkLoop fresh 0 len (fuel + 1 + chunks.length) header memory p nChunk =
          some (ret, { header with
            meChunkFinished := .chunkd
            miChunkSize := nChunk + chunks.length
            mpoChunks := enterChunks header.mpoChunks nChunk p chunks }, memory') ∧
        memory'.take p = memory.take p := by
  induction chunks generalizing header memory p nChunk with
  | nil =>
    obtain ⟨ret, hloop⟩ := chunkLoop_zero header fresh fuel nChunk hlast hvalue hdrop
      (by simpa using hlen)
    exact ⟨ret, memory, hloop, rfl⟩
  | cons chunk chunks ih =>
    have hchunk := hchunks chunk List.mem_cons_self
    simp only [List.flatMap_cons, List.length_append, List.length_cons] at hdrop hlen hroom
    have hlength := chunk.length_text
    have hdrop' : memory.drop p = chunk.size ++ cr :: (lf :: (chunk.data ++ cr :: lf ::
        (chunks.flatMap ChunkText.text ++ (last ++ cr :: rest)))) := by
      simp [hdrop, ChunkText.text]
    have hbehind : (memory.set (p + chunk.text.length - 2) 0).drop (p + chunk.text.length) =
        chunks.flatMap ChunkText.text ++ (last ++ cr :: rest) := by
      rw [List.drop_set_of_lt (by omega), ← List.drop_drop, hdrop, List.append_assoc,
        List.drop_left]
    obtain ⟨ret, memory', hloop, htake⟩ := ih
      { header with mpoChunks := Function.update header.mpoChunks nChunk (chunk.entry p) }
      (nChunk + 1) (fun c hc => hchunks c (List.mem_cons_of_mem _ hc)) hbehind
      (by simp only; omega) (by omega)
    refine ⟨ret, memory', ?_, ?_⟩
    · rw [List.length_cons, ← Nat.add_assoc, chunkLoop_chunk hchunk
        (nextChunk_text hchunk hdrop' (by omega)) (by omega), hloop, Nat.add_assoc nChunk,
        Nat.add_comm 1]
      rfl
    · have hfront := congrArg (List.take p) htake
      rw [List.take_take, List.take_take, min_eq_left (by omega)] at hfront
      rw [hfront, List.take_set_of_le (by omega)]

/-- An empty line is passed over. -/
theorem skipCrlf_empty {c : UInt8} (hdrop : memory.drop p = cr :: lf :: c :: rest)
    (hc : isHexDigit c = true) (hlen : 2 < len - p) :
    skipCrlf memory (some p) (len - p) = some (p + 2) := by
  refine scanFrom_append (a := [cr, lf]) (b := rest) hdrop ?_ (isHexDigit_ne hc rfl) ?_
    (by omega) (by simpa using hlen)
  · intro x hx
    rw [List.mem_cons, List.mem_singleton] at hx
    refine ⟨?_, fun _ _ => decide_eq_true hx⟩
    rcases hx with rfl | rfl
    · decide
    · decide
  · simp [isHexDigit_ne hc (e := cr) rfl, isHexDigit_ne hc (e := lf) rfl]

theorem ChunkedText.Good.exists_cons {body : ChunkedText} (h : body.Good) :
    ∃ c rest, body.text = c :: rest ∧ isHexDigit c = true := by
  obtain ⟨chunks, last, trailer⟩ := body
  obtain ⟨hchunks, hlast, -⟩ := h
  cases chunks with
  | nil =>
    obtain ⟨c, last', rfl⟩ := List.exists_cons_of_ne_nil hlast.ne_nil
    exact ⟨c, _, rfl, hlast.digits c List.mem_cons_self⟩
  | cons chunk chunks =>
    have hsize := (hchunks chunk List.mem_cons_self).size
    obtain ⟨size, data⟩ := chunk
    obtain ⟨c, size', rfl⟩ := List.exists_cons_of_ne_nil hsize.ne_nil
    exact ⟨c, _, rfl, hsize.digits c List.mem_cons_self⟩

/-- A body in chunks is recorded as a whole. Nothing in front of it is touched. -/
theorem parseChunked_text {body : ChunkedText} (hbody : body.Good) (hsize : header.miChunkSize = 0)
    (hroom : body.chunks.length ≤ header.miCapChunkSize) (fresh : Fresh) {behind : List UInt8}
    (hdrop : memory.drop p = cr :: lf :: (body.text ++ behind))
    (hlen : (p : Int) + 2 + body.text.length ≤ len) :
    ∃ ret memory', header.parseChunked fresh memory 0 len p =
        some (ret, { header with
          meChunkFinished := .chunkd
          miChunkSize := body.chunks.length
          mpoChunks := enterChunks header.mpoChunks 0 (p + 2) body.chunks }, memory') ∧
      memory'.take (p + 2) = memory.take (p + 2) := by
  obtain ⟨c, rest, hcons, hdigit⟩ := hbody.exists_cons
  have hpos : 0 < body.text.length := by simp [hcons]
  have hfirst : memory.drop p = cr :: lf :: c :: (rest ++ behind) := by
    rw [hdrop, hcons]
    rfl
  have hskip : skipCrlf memory (some p) (len - p) = some (p + 2) :=
    skipCrlf_empty hfirst hdigit (by omega)
  obtain ⟨chunks, last, trailer⟩ := body
  obtain ⟨hchunks, hlast, hvalue⟩ := hbody
  simp only at hchunks hlast hvalue hroom
  simp only [ChunkedText.text, List.length_append, List.length_cons] at hlen
  have hnumber := length_le_length_flatMap (f := ChunkText.text) (by simp [ChunkText.text]) chunks
  have hbehind : memory.drop (p + 2) =
      chunks.flatMap ChunkText.text ++ (last ++ cr :: (lf :: (trailer ++ behind))) := by
    rw [← List.drop_drop, hdrop]
    simp [ChunkedText.text]
  have hends : ((chunks.flatMap ChunkText.text).length : Int) + last.length <
      len - (p + 2 : Nat) := by omega
  obtain ⟨ret, memory', hloop, htake⟩ := chunkLoop_chunks
    { header with meChunkFinished := .chunk } fresh (len.toNat - chunks.length) 0 hchunks hlast
    hvalue hbehind (by simp only; omega) hends
  have hfuel : len.toNat + 1 = len.toNat - chunks.length + 1 + chunks.length := by omega
  refine ⟨ret, memory', ?_, htake⟩
  rw [← hfuel, Nat.zero_add, hsize] at hloop
  rw [parseChunked, Nat.zero_add, hsize, chunkLoop_skip hskip, hloop]

end

end HTTPClient
