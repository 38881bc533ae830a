-- SUMMARY: The Internet message format: scanners, status line, header table and chunk table.
import NetworkEtc.Library.Printf

/-!
# `CIMFHeader`

Pointers are offsets into one piece of memory; `NULL` is `none`. Behind the end of the memory
there are zeros. The parser writes zeros into the memory it reads.

What the C++ standard leaves undefined (a digit outside of `hex_table`, more than nine digits for
`strlength`, an address before the memory) is `none`, as is a loop without end.
-/

namespace HTTPClient

open Library Library.Printf

/-- `CR` -/
def cr : UInt8 := 13
/-- `LF` -/
def lf : UInt8 := 10

/-- `*p <= ' '`, a `char` having a sign. -/
def isBlank (c : UInt8) : Bool := c ≤ 32 ∨ 128 ≤ c

/-! # Scanners -/

/-- How far a scanner goes in `len` bytes. It goes on at a byte, as long as `go` is true of it and
of the one behind it; a zero or the end of the bytes is a failure. -/
def scan (go : UInt8 → UInt8 → Bool) : Nat → List UInt8 → Option Nat
  | 0, _ => none
  | _ + 1, [] => none
  | len + 1, c :: l =>
    if c = 0 then none
    else if go c (l.headD 0) then (scan go len l).map (· + 1)
    else some 0

/-- A scanner that wants `least` bytes. -/
def scanFrom (least : Int) (go : UInt8 → UInt8 → Bool) (memory : List UInt8) (p : Option Nat)
    (len : Int) : Option Nat :=
  p.bind fun p =>
    if len < least then none else (scan go len.toNat (memory.drop p)).map (p + ·)

def skipWhitespace : List UInt8 → Option Nat → Int → Option Nat :=
  scanFrom 1 fun c _ => isBlank c

def seekWhitespace : List UInt8 → Option Nat → Int → Option Nat :=
  scanFrom 1 fun c _ => c ≠ ascii ' '

def skipCrlf : List UInt8 → Option Nat → Int → Option Nat :=
  scanFrom 2 fun c _ => c = cr ∨ c = lf

def seekCrlf : List UInt8 → Option Nat → Int → Option Nat :=
  scanFrom 2 fun c next => c ≠ cr ∧ next ≠ lf

def seekChar (memory : List UInt8) (p : Option Nat) (len : Int) (c : UInt8) : Option Nat :=
  scanFrom 1 (fun e _ => e ≠ c) memory p len

section

variable {go : UInt8 → UInt8 → Bool} {len k p q : Nat} {l a b memory : List UInt8} {c : UInt8}
  {least size : Int}

theorem scan_eq_some_iff : scan go len l = some k ↔ k < len ∧ l.getD k 0 ≠ 0 ∧
    go (l.getD k 0) (l.getD (k + 1) 0) = false ∧
    ∀ j < k, l.getD j 0 ≠ 0 ∧ go (l.getD j 0) (l.getD (j + 1) 0) = true := by
  induction len generalizing l k with
  | zero => simp [scan]
  | succ len ih =>
    cases l with
    | nil => simp [scan]
    | cons c l =>
      have hhead : l.headD 0 = l.getD 0 0 := by cases l <;> rfl
      rw [scan]
      split
      · next hc =>
        subst hc
        simp only [reduceCtorEq, false_iff, not_and]
        intro _ hk _ hbefore
        cases k with
        | zero => exact hk rfl
        | succ k => exact (hbefore 0 (Nat.succ_pos k)).1 rfl
      · next hc =>
        split
        · next hgo =>
          cases k with
          | zero =>
            simp only [Option.map_eq_some_iff, Nat.add_eq_zero_iff, one_ne_zero, and_false,
              exists_const, false_iff, not_and]
            intro _ _ hstop
            rw [hhead] at hgo
            exact absurd (hgo.symm.trans hstop) (by simp)
          | succ k =>
            simp only [Option.map_eq_some_iff, Nat.add_right_cancel_iff, exists_eq_right, ih]
            constructor
            · rintro ⟨hlen, hk, hstop, hbefore⟩
              refine ⟨Nat.succ_lt_succ hlen, hk, hstop, fun j hj => ?_⟩
              cases j with
              | zero => exact ⟨hc, hhead ▸ hgo⟩
              | succ j => exact hbefore j (Nat.lt_of_succ_lt_succ hj)
            · rintro ⟨hlen, hk, hstop, hbefore⟩
              exact ⟨Nat.lt_of_succ_lt_succ hlen, hk, hstop,
                fun j hj => hbefore (j + 1) (Nat.succ_lt_succ hj)⟩
        · next hgo =>
          constructor
          · intro hk
            obtain rfl : 0 = k := Option.some.inj hk
            refine ⟨Nat.succ_pos _, hc, ?_, fun j hj => absurd hj (Nat.not_lt_zero j)⟩
            rw [hhead] at hgo
            simpa using hgo
          · rintro ⟨-, -, -, hbefore⟩
            cases k with
            | zero => rfl
            | succ k =>
              have hfirst := (hbefore 0 (Nat.succ_pos k)).2
              rw [hhead] at hgo
              exact absurd hfirst hgo

/-- Where a scanner stops. -/
theorem scanFrom_eq_some_iff : scanFrom least go memory (some p) size = some q ↔
    least ≤ size ∧ p ≤ q ∧ (q : Int) - p < size ∧ memory.getD q 0 ≠ 0 ∧
    go (memory.getD q 0) (memory.getD (q + 1) 0) = false ∧
    ∀ j, p ≤ j → j < q →
      memory.getD j 0 ≠ 0 ∧ go (memory.getD j 0) (memory.getD (j + 1) 0) = true := by
  have hget : ∀ k, (memory.drop p).getD k 0 = memory.getD (p + k) 0 := by
    intro k
    simp [List.getD_eq_getElem?_getD, List.getElem?_drop]
  unfold scanFrom
  rw [Option.bind_some]
  split
  · next hlt => simp [hlt]
  · next hle =>
    simp only [Option.map_eq_some_iff, scan_eq_some_iff, hget]
    constructor
    · rintro ⟨k, ⟨hlen, hk, hstop, hbefore⟩, rfl⟩
      refine ⟨Int.not_lt.mp hle, Nat.le_add_right p k, by omega, hk, hstop, fun j hj hjk => ?_⟩
      obtain ⟨i, rfl⟩ := Nat.exists_eq_add_of_le hj
      exact hbefore i (Nat.lt_of_add_lt_add_left hjk)
    · rintro ⟨-, hpq, hlen, hk, hstop, hbefore⟩
      obtain ⟨k, rfl⟩ := Nat.exists_eq_add_of_le hpq
      exact ⟨k, ⟨by omega, hk, hstop, fun j hj =>
        hbefore (p + j) (Nat.le_add_right p j) (Nat.add_lt_add_left hj p)⟩, rfl⟩

theorem scanFrom_short {p : Option Nat} (h : size < least) :
    scanFrom least go memory p size = none := by
  cases p with
  | none => rfl
  | some p => exact if_pos h

/-- Nothing stops a scanner that goes on at all bytes. -/
theorem scanFrom_eq_none (h : ∀ q, p ≤ q → (q : Int) - p < size → memory.getD q 0 ≠ 0 →
    go (memory.getD q 0) (memory.getD (q + 1) 0) = true) :
    scanFrom least go memory (some p) size = none := by
  cases hscan : scanFrom least go memory (some p) size with
  | none => rfl
  | some q =>
    obtain ⟨-, hle, hlt, hne, hstop, -⟩ := scanFrom_eq_some_iff.mp hscan
    rw [h q hle hlt hne] at hstop
    cases hstop

/-- A scanner stops at the same place in other memory, if the bytes it looks at are the same, and what
stands behind them stops it too. -/
theorem scanFrom_agree {memory' : List UInt8} {n : Nat}
    (hagree : ∀ j, p ≤ j → j < n → memory'.getD j 0 = memory.getD j 0) (hsize : (p : Int) + size ≤ n)
    (hlast : ∀ c, go c (memory.getD n 0) = false → go c (memory'.getD n 0) = false)
    (h : scanFrom least go memory (some p) size = some q) :
    scanFrom least go memory' (some p) size = some q := by
  obtain ⟨hleast, hle, hlt, hne, hstop, hbefore⟩ := scanFrom_eq_some_iff.mp h
  have hq : q < n := by omega
  have hqn := hagree q hle hq
  refine scanFrom_eq_some_iff.mpr ⟨hleast, hle, hlt, hqn ▸ hne, ?_, fun j hj hjq => ?_⟩
  · rw [hqn]
    rcases Nat.lt_or_eq_of_le hq with hnext | hnext
    · rwa [hagree (q + 1) (by omega) hnext]
    · rw [Nat.succ_eq_add_one] at hnext
      rw [hnext] at hstop ⊢
      exact hlast _ hstop
  · rw [hagree j hj (hjq.trans hq), hagree (j + 1) (by omega) (by omega)]
    exact hbefore j hj hjq

/-- A scanner goes over the bytes in front of the one that stops it. -/
theorem scanFrom_append (hdrop : memory.drop p = a ++ c :: b)
    (ha : ∀ x ∈ a, x ≠ 0 ∧ ∀ y ∈ a ++ [c], go x y = true) (hc : c ≠ 0)
    (hstop : go c (b.headD 0) = false) (hleast : least ≤ size) (hsize : (a.length : Int) < size) :
    scanFrom least go memory (some p) size = some (p + a.length) := by
  have hscan : ∀ {a : List UInt8} {len : Nat},
      (∀ x ∈ a, x ≠ 0 ∧ ∀ y ∈ a ++ [c], go x y = true) → a.length < len →
      scan go len (a ++ c :: b) = some a.length := by
    intro a
    induction a with
    | nil =>
      intro len _ hlen
      obtain ⟨n, rfl⟩ := Nat.exists_eq_add_one_of_ne_zero (Nat.ne_of_gt hlen)
      simp only [List.nil_append, scan, if_neg hc, hstop]
      rfl
    | cons x a ih =>
      intro len ha hlen
      obtain ⟨n, rfl⟩ := Nat.exists_eq_add_one_of_ne_zero (Nat.ne_of_gt (Nat.zero_lt_of_lt hlen))
      obtain ⟨hx, hnext⟩ := ha x List.mem_cons_self
      have hhead : (a ++ c :: b).headD 0 ∈ a ++ [c] := by cases a <;> simp
      rw [List.cons_append, scan, if_neg hx,
        if_pos (hnext _ (List.mem_cons_of_mem x hhead)),
        ih (fun y hy => ⟨(ha y (List.mem_cons_of_mem x hy)).1, fun z hz =>
          (ha y (List.mem_cons_of_mem x hy)).2 z (List.mem_cons_of_mem x hz)⟩)
          (Nat.lt_of_succ_lt_succ hlen)]
      rfl
  unfold scanFrom
  rw [Option.bind_some, if_neg (Int.not_lt.mpr hleast), hdrop, hscan ha (by omega)]
  rfl

end

/-! # The first line -/

/-- `StatusLine`. The lengths are -1 always. -/
structure StatusLine where
  version : Option Nat
  code : Option Nat
  reason : Option Nat
  deriving DecidableEq

/-- `LineParse`: where the next line begins, or -1. -/
def lineParse (memory : List UInt8) (buf : Nat) (len : Int) (offs : Nat) :
    Int × StatusLine × List UInt8 :=
  let remlen (p : Nat) : Int := len - (p - buf)
  match skipWhitespace memory (some (buf + offs)) len with
  | none => (-1, ⟨none, none, none⟩, memory)
  | some version =>
    match seekWhitespace memory (some version) (remlen version) with
    | none => (-1, ⟨some version, none, none⟩, memory)
    | some p =>
      let memory := memory.set p 0
      match skipWhitespace memory (some (p + 1)) (remlen (p + 1)) with
      | none => (-1, ⟨some version, none, none⟩, memory)
      | some code =>
        match seekWhitespace memory (some code) (remlen code) with
        | none => (-1, ⟨some version, some code, none⟩, memory)
        | some p =>
          let memory := memory.set p 0
          match skipWhitespace memory (some (p + 1)) (remlen (p + 1)) with
          | none => (-1, ⟨some version, some code, none⟩, memory)
          | some reason =>
            let line : StatusLine := ⟨some version, some code, some reason⟩
            match seekCrlf memory (some reason) (remlen reason) with
            | none => (-1, line, memory)
            | some p => ((p : Int) + 2 - buf, line, memory.set p 0)

/-! # The tables -/

structure KeyValue where
  keyStart : Nat
  keyLength : Nat
  valueStart : Nat
  valueLength : Nat
  deriving DecidableEq

structure Chunk where
  start : Nat
  length : Int32
  deriving DecidableEq

/-- What `new KeyValue[n]` and `new Chunk[n]` give for each `n`: memory with whatever it holds. -/
structure Fresh where
  keyValues : Nat → Nat → KeyValue
  chunks : Nat → Nat → Chunk

/-- `CIMFHeader::State` -/
inductive State where
  | header
  | chunk
  | chunkd
  deriving DecidableEq

structure CIMFHeader where
  miHeaderSize : Nat
  miCapHeaderSize : Nat
  miChunkSize : Nat
  meChunkFinished : State
  miCapChunkSize : Nat
  mpoHeaders : Nat → KeyValue
  mpoChunks : Nat → Chunk
  mpcData : Option Nat

/-- `KEYVAL_BUFFER_SIZE` -/
def keyvalBufferSize : Nat := 16

namespace CIMFHeader

/-- `Init`; the buffers hold whatever they hold. -/
def init (moHeaderBuffer : Nat → KeyValue) (moChunkBuffer : Nat → Chunk) : CIMFHeader where
  miHeaderSize := 0
  miCapHeaderSize := keyvalBufferSize
  miChunkSize := 0
  meChunkFinished := .header
  miCapChunkSize := keyvalBufferSize
  mpoHeaders := moHeaderBuffer
  mpoChunks := moChunkBuffer
  mpcData := none

/-- `GetHeaders`. No more entries are copied than `miHeaderSize` says. -/
def getHeaders (header : CIMFHeader) (fresh : Fresh) (newSize : Nat) : CIMFHeader :=
  if newSize < header.miCapHeaderSize then header
  else
    { header with
      miCapHeaderSize := header.miCapHeaderSize * 2
      mpoHeaders := fun i =>
        if i < header.miHeaderSize then header.mpoHeaders i
        else fresh.keyValues (header.miCapHeaderSize * 2) i }

/-- `GetChunks` -/
def getChunks (header : CIMFHeader) (fresh : Fresh) (newSize : Nat) : CIMFHeader :=
  if newSize < header.miCapChunkSize then header
  else
    { header with
      miCapChunkSize := header.miCapChunkSize * 2
      mpoChunks := fun i =>
        if i < header.miChunkSize then header.mpoChunks i
        else fresh.chunks (header.miCapChunkSize * 2) i }

/-- `tolower` -/
def toLower (c : UInt8) : UInt8 := if 65 ≤ c ∧ c ≤ 90 then c + 32 else c

/-- `strncasecmp(..) == 0` -/
def equalNoCase : Nat → List UInt8 → List UInt8 → Bool
  | 0, _, _ => true
  | n + 1, s, t =>
    let c := toLower (s.headD 0)
    c = toLower (t.headD 0) && (c = 0 || equalNoCase n s.tail t.tail)

/-- `GetField`: a pointer to the value. As much is compared as the name in the table is long. -/
def getField (header : CIMFHeader) (memory : List UInt8) (key : List UInt8) : Option Nat :=
  header.mpcData.bind fun mpcData =>
    ((List.range header.miHeaderSize).find? fun i =>
      equalNoCase (header.mpoHeaders i).keyLength key
        (memory.drop (mpcData + (header.mpoHeaders i).keyStart))).map
      fun i => mpcData + (header.mpoHeaders i).valueStart

/-! # Chunks -/

/-- `hex_table` -/
def hexTable (c : UInt8) : Option Nat :=
  if 102 < c then none
  else if 48 ≤ c ∧ c ≤ 57 then some (c.toNat - 48)
  else if 65 ≤ c ∧ c ≤ 70 then some (c.toNat - 55)
  else if 97 ≤ c then some (c.toNat - 87)
  else some 0

/-- `Hex2Int` -/
def hex2Int (iret : Int32) : List UInt8 → Option Int32
  | [] => some iret
  | c :: rest => (hexTable c).bind fun d => hex2Int ((iret <<< 4) ||| Int32.ofNat d) rest

/-- The loop of `ParseChunked`, with `nChunk` chunks so far. -/
def chunkLoop (fresh : Fresh) (buf : Nat) (len : Int) :
    Nat → CIMFHeader → List UInt8 → Nat → Nat → Option (Int × CIMFHeader × List UInt8)
  | 0, _, _, _, _ => none
  | fuel + 1, header, memory, pStart, nChunk =>
    let remlen (p : Nat) : Int := len - (p - buf)
    let done (header : CIMFHeader) (pStart : Nat) : Option (Int × CIMFHeader × List UInt8) :=
      some ((pStart : Int) - buf, { header with miChunkSize := nChunk }, memory)
    match skipCrlf memory (some pStart) (remlen pStart) with
    | none => done header pStart
    | some pStart =>
      match seekCrlf memory (some pStart) (remlen pStart) with
      | none => done header pStart
      | some pTemp =>
        let strlength := (memory.drop pStart).take (pTemp - pStart)
        if 9 < strlength.length then none
        else do
          let nBytes ← hex2Int 0 strlength
          let pStart := pTemp + 2
          if nBytes = 0 then done { header with meChunkFinished := .chunkd } pStart
          else
            let pEnd := (pStart : Int) + nBytes.toInt
            if pEnd < 0 then none
            else
              let header := header.getChunks fresh nChunk
              let chunk : Chunk := ⟨pStart - buf, nBytes⟩
              let header :=
                { header with mpoChunks := Function.update header.mpoChunks nChunk chunk }
              chunkLoop fresh buf len fuel header (memory.set pEnd.toNat 0) (pEnd.toNat + 2)
                (nChunk + 1)

/-- `ParseChunked` -/
def parseChunked (header : CIMFHeader) (fresh : Fresh) (memory : List UInt8) (buf : Nat)
    (len : Int) (offs : Nat) : Option (Int × CIMFHeader × List UInt8) :=
  chunkLoop fresh buf len (len.toNat + 1) { header with meChunkFinished := .chunk } memory
    (buf + offs) header.miChunkSize

/-! # Header lines -/

/-- The loop of `Parse`, with `nkv` headers so far. What is left at a line that is not complete
has a zero for its `':'` already. -/
def headerLoop (fresh : Fresh) (buf : Nat) (len : Int) :
    Nat → CIMFHeader → List UInt8 → Nat → Nat → CIMFHeader × List UInt8 × Nat × Nat
  | 0, header, memory, p, nkv => (header, memory, p, nkv)
  | fuel + 1, header, memory, p, nkv =>
    let remlen (p : Nat) : Int := len - (p - buf)
    if (buf : Int) + len ≤ p then (header, memory, p, nkv)
    else if memory.getD p 0 = cr ∧ memory.getD (p + 1) 0 = lf then (header, memory, p, nkv)
    else
      let key := p
      match seekChar memory (some key) (remlen key) (ascii ':') with
      | none => (header, memory, key, nkv)
      | some p =>
        let keylen := p - key
        let memory := memory.set p 0
        match skipWhitespace memory (some (p + 1)) (remlen (p + 1)) with
        | none => (header, memory, key, nkv)
        | some value =>
          match seekCrlf memory (some value) (remlen value) with
          | none => (header, memory, key, nkv)
          | some p =>
            let header := header.getHeaders fresh nkv
            let keyvalue : KeyValue := ⟨key - buf, keylen, value - buf, p - value⟩
            let header :=
              { header with mpoHeaders := Function.update header.mpoHeaders nkv keyvalue }
            headerLoop fresh buf len fuel header (memory.set p 0) (p + 2) (nkv + 1)

/-- `"transfer-encoding"` -/
def transferEncoding : List UInt8 := "transfer-encoding".toList.map ascii

/-- `"chunked"` -/
def chunked : List UInt8 := "chunked".toList.map ascii

/-- The first part of `Parse`, where `buf` is `mpcData`: the header lines, and where it stops. -/
def parseLines (header : CIMFHeader) (fresh : Fresh) (memory : List UInt8) (buf : Nat) (len : Int)
    (offs : Nat) : Option (CIMFHeader × List UInt8 × Nat) :=
  if header.meChunkFinished = .header then
    (skipCrlf memory (some (buf + offs)) (len - offs)).map fun p =>
      let (header, memory, p, nkv) :=
        headerLoop fresh buf len (len.toNat + 1) header memory p header.miHeaderSize
      ({ header with miHeaderSize := nkv }, memory, p)
  else some (header, memory, buf + offs)

/-- The second part of `Parse`: the chunks, if there are any. -/
def parseBody (header : CIMFHeader) (fresh : Fresh) (memory : List UInt8) (buf : Nat) (len : Int)
    (offs p : Nat) : Option (Int × CIMFHeader × List UInt8) :=
  match header.getField memory transferEncoding with
  | none => some ((p : Int) - buf, header, memory)
  | some ct =>
    if (memory.drop ct).take 7 = chunked then do
      let (keylen, header, memory) ← header.parseChunked fresh memory buf len (p - buf)
      if (p : Int) - buf < keylen then some (keylen - offs, header, memory)
      else some (keylen, header, memory)
    else some ((p : Int) - buf, header, memory)

def parseFrom (header : CIMFHeader) (fresh : Fresh) (memory : List UInt8) (buf : Nat) (len : Int)
    (offs : Nat) : Option (Int × CIMFHeader × List UInt8) :=
  match header.parseLines fresh memory buf len offs with
  | none => some (-1, header, memory)
  | some (header, memory, p) => header.parseBody fresh memory buf len offs p

/-- `Parse` -/
def parse (header : CIMFHeader) (fresh : Fresh) (memory : List UInt8) (buf : Nat) (len : Int)
    (offs : Nat) : Option (Int × CIMFHeader × List UInt8) :=
  match header.mpcData with
  | some mpcData =>
    if mpcData + offs = buf then header.parseFrom fresh memory mpcData (len + offs) offs
    else none -- the assertion
  | none => { header with mpcData := some buf }.parseFrom fresh memory buf len offs

section

variable {header header' : CIMFHeader} {fresh : Fresh} {memory memory' : List UInt8}
  {buf offs p : Nat} {len : Int}

theorem parseLines_none (hstate : header.meChunkFinished = .header)
    (hskip : skipCrlf memory (some (buf + offs)) (len - offs) = none) :
    header.parseLines fresh memory buf len offs = none := by
  rw [parseLines, if_pos hstate, hskip]
  rfl

theorem parseLines_some {q nkv : Nat} (hstate : header.meChunkFinished = .header)
    (hskip : skipCrlf memory (some (buf + offs)) (len - offs) = some p)
    (hloop : headerLoop fresh buf len (len.toNat + 1) header memory p header.miHeaderSize =
      (header', memory', q, nkv)) :
    header.parseLines fresh memory buf len offs =
      some ({ header' with miHeaderSize := nkv }, memory', q) := by
  rw [parseLines, if_pos hstate, hskip, Option.map_some, hloop]

end

end CIMFHeader

/-! # What stays

The parser writes nothing but zeros, and reading chunks it leaves the header table alone.
-/

/-- Some of the bytes are zero now. -/
def Zeroed (memory memory' : List UInt8) : Prop :=
  memory'.length = memory.length ∧
    ∀ i, memory'.getD i 0 = memory.getD i 0 ∨ memory'.getD i 0 = 0

namespace Zeroed

variable {memory memory' memory'' : List UInt8}

theorem refl (memory : List UInt8) : Zeroed memory memory := ⟨rfl, fun _ => Or.inl rfl⟩

theorem trans (h : Zeroed memory memory') (h' : Zeroed memory' memory'') :
    Zeroed memory memory'' := by
  refine ⟨h'.1.trans h.1, fun i => ?_⟩
  rcases h'.2 i with heq | hzero
  · rw [heq]
    exact h.2 i
  · exact Or.inr hzero

theorem set (memory : List UInt8) (p : Nat) : Zeroed memory (memory.set p 0) := by
  refine ⟨List.length_set, fun i => ?_⟩
  simp only [List.getD_eq_getElem?_getD, List.getElem?_set]
  split
  · split
    · exact Or.inr rfl
    · exact Or.inr rfl
  · exact Or.inl rfl

end Zeroed

namespace CIMFHeader

/-- The header table is the same. -/
def SameHeaders (header header' : CIMFHeader) : Prop :=
  header'.miHeaderSize = header.miHeaderSize ∧ header'.mpoHeaders = header.mpoHeaders ∧
    header'.mpcData = header.mpcData

variable {header header' : CIMFHeader} {fresh : Fresh} {memory memory' : List UInt8}
  {buf fuel pStart nChunk offs p : Nat} {len ret : Int}

theorem sameHeaders_getChunks (header : CIMFHeader) (fresh : Fresh) (nChunk : Nat) :
    SameHeaders header (header.getChunks fresh nChunk) := by
  unfold getChunks
  split
  · exact ⟨rfl, rfl, rfl⟩
  · exact ⟨rfl, rfl, rfl⟩

theorem chunkLoop_same
    (h : chunkLoop fresh buf len fuel header memory pStart nChunk = some (ret, header', memory')) :
    SameHeaders header header' ∧ Zeroed memory memory' := by
  induction fuel generalizing header memory pStart nChunk with
  | zero => exact absurd h (by simp [chunkLoop])
  | succ fuel ih =>
    have hdone : ∀ {header₁ : CIMFHeader} {r : Int},
        some (r, header₁, memory) = some (ret, header', memory') → SameHeaders header header₁ →
        SameHeaders header header' ∧ Zeroed memory memory' := by
      intro header₁ r heq hsame
      cases heq
      exact ⟨hsame, Zeroed.refl _⟩
    rw [chunkLoop] at h
    simp only at h
    split at h
    · exact hdone h ⟨rfl, rfl, rfl⟩
    · split at h
      · exact hdone h ⟨rfl, rfl, rfl⟩
      · split at h
        · cases h
        · obtain ⟨nBytes, -, h⟩ := Option.bind_eq_some_iff.mp h
          split at h
          · exact hdone h ⟨rfl, rfl, rfl⟩
          · split at h
            · cases h
            · obtain ⟨hsame, hzeroed⟩ := ih h
              have hchunks := sameHeaders_getChunks header fresh nChunk
              exact ⟨⟨hsame.1.trans hchunks.1, hsame.2.1.trans hchunks.2.1,
                hsame.2.2.trans hchunks.2.2⟩, (Zeroed.set memory _).trans hzeroed⟩

theorem parseBody_same
    (h : header.parseBody fresh memory buf len offs p = some (ret, header', memory')) :
    SameHeaders header header' ∧ Zeroed memory memory' := by
  unfold parseBody at h
  split at h
  · cases h
    exact ⟨⟨rfl, rfl, rfl⟩, Zeroed.refl memory⟩
  · split at h
    · obtain ⟨⟨keylen, header₁, memory₁⟩, hchunks, h⟩ := Option.bind_eq_some_iff.mp h
      have hsame := chunkLoop_same hchunks
      simp only at h
      split at h
      · cases h
        exact hsame
      · cases h
        exact hsame
    · cases h
      exact ⟨⟨rfl, rfl, rfl⟩, Zeroed.refl memory⟩

end CIMFHeader

end HTTPClient
