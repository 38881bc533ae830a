-- SUMMARY: ParseChunked in a buffer of its own: when every access is inside, and what is recorded.
import NetworkEtc.HTTP.TableGrowth
import NetworkEtc.Library.Scan

/-!
# `ParseChunked` in its buffer

The memory is the buffer and nothing else, and each access is checked: to read or write outside of
it is a failure.
-/

namespace HTTPClient

open Library Library.Printf CIMFHeader

/-! # Checked accesses -/

/-- A scanner, where `none` is a read behind the bytes. Whether it goes on at a byte is decided with
the bytes behind that one. -/
def scanIn (go : UInt8 → List UInt8 → Option Bool) : Nat → List UInt8 → Option (Option Nat)
  | 0, _ => some none
  | _ + 1, [] => none
  | len + 1, c :: l =>
    if c = 0 then some none
    else (go c l).bind fun goes =>
      if goes then (scanIn go len l).map (Option.map (· + 1)) else some (some 0)

def scanFromIn (go : UInt8 → List UInt8 → Option Bool) (memory : List UInt8) (p : Nat) :
    Option (Option Nat) :=
  let len : Int := memory.length - p
  if len < 2 then some none
  else (scanIn go len.toNat (memory.drop p)).map (Option.map (p + ·))

def skipCrlfIn : List UInt8 → Nat → Option (Option Nat) :=
  scanFromIn fun c _ => some (c = cr ∨ c = lf)

/-- `p[1]` is read if `p[0]` is no `CR`. -/
def seekCrlfIn : List UInt8 → Nat → Option (Option Nat) :=
  scanFromIn fun c rest => if c = cr then some false else rest.head?.map (· ≠ lf)

/-- A chunk that begins at 0 or later and ends in the bytes. -/
def Chunk.Inside (chunk : Chunk) (len : Nat) : Prop :=
  0 ≤ (chunk.start : Int) ∧ (chunk.start : Int) + chunk.length.toInt ≤ len

namespace CIMFHeader

/-- The loop of `ParseChunked`, in a buffer. -/
def chunkLoopIn (fresh : Fresh) :
    Nat → CIMFHeader → List UInt8 → Nat → Nat → Option (Int × CIMFHeader × List UInt8)
  | 0, _, _, _, _ => none
  | fuel + 1, header, memory, pStart, nChunk =>
    let done (header : CIMFHeader) (pStart : Nat) : Option (Int × CIMFHeader × List UInt8) :=
      some (pStart, { header with miChunkSize := nChunk }, memory)
    match skipCrlfIn memory pStart with
    | none => none
    | some none => done header pStart
    | some (some pStart) =>
      match seekCrlfIn memory pStart with
      | none => none
      | some none => done header pStart
      | some (some pTemp) =>
        let strlength := (memory.drop pStart).take (pTemp - pStart)
        if 9 < strlength.length then none
        else do
          let nBytes ← hex2Int 0 strlength
          let pStart := pTemp + 2
          if nBytes = 0 then done { header with meChunkFinished := .chunkd } pStart
          else
            let pEnd := (pStart : Int) + nBytes.toInt
            if pEnd < 0 ∨ memory.length ≤ pEnd then none
            else
              let header := header.getChunks fresh nChunk
              let header :=
                { header with mpoChunks := Function.update header.mpoChunks nChunk ⟨pStart, nBytes⟩ }
              chunkLoopIn fresh fuel header (memory.set pEnd.toNat 0) (pEnd.toNat + 2) (nChunk + 1)

/-- `ParseChunked` of a buffer comes to an end with this result. -/
def ParsesIn (header : CIMFHeader) (fresh : Fresh) (memory : List UInt8) (offs : Nat)
    (result : Int × CIMFHeader × List UInt8) : Prop :=
  ∃ fuel, chunkLoopIn fresh fuel { header with meChunkFinished := .chunk } memory offs
    header.miChunkSize = some result

/-- `ParseChunked` comes to an end without an access outside of the buffer, and the chunks of this
call in the table are inside of it. -/
def StaysIn (header : CIMFHeader) (memory : List UInt8) (offs : Nat) : Prop :=
  ∀ fresh, ∃ ret header' memory', header.ParsesIn fresh memory offs (ret, header', memory') ∧
    ∀ i, header.miChunkSize ≤ i → i < header'.miChunkSize →
      (header'.mpoChunks i).Inside memory.length

end CIMFHeader

/-! # What stands behind the buffer -/

section

variable {go : UInt8 → List UInt8 → Option Bool} {go' : UInt8 → UInt8 → Bool} {len p : Nat}
  {l memory memory' behind : List UInt8} {r : Option Nat}

theorem scanIn_agrees (hgo : ∀ c l b, go c l = some b → go' c ((l ++ behind).headD 0) = b)
    (h : scanIn go len l = some r) : scan go' len (l ++ behind) = r := by
  induction len generalizing l r with
  | zero =>
    cases h
    rfl
  | succ len ih =>
    cases l with
    | nil => cases h
    | cons c l =>
      rw [scanIn] at h
      rw [List.cons_append, scan]
      split at h
      · next hzero =>
        cases h
        rw [if_pos hzero]
      · next hne =>
        obtain ⟨goes, hgoes, h⟩ := Option.bind_eq_some_iff.mp h
        rw [if_neg hne, hgo c l goes hgoes]
        split at h
        · next hgoes' =>
          obtain ⟨k, hk, rfl⟩ := Option.map_eq_some_iff.mp h
          rw [if_pos hgoes', ih hk]
        · next hstops =>
          cases h
          rw [if_neg hstops]

theorem scanFromIn_agrees (hgo : ∀ c l b, go c l = some b → go' c ((l ++ behind).headD 0) = b)
    (h : scanFromIn go memory p = some r) :
    scanFrom 2 go' (memory ++ behind) (some p) (memory.length - p) = r := by
  unfold scanFromIn at h
  unfold scanFrom
  rw [Option.bind_some]
  simp only at h
  split at h
  · next hshort =>
    cases h
    rw [if_pos hshort]
  · next hlong =>
    obtain ⟨k, hk, rfl⟩ := Option.map_eq_some_iff.mp h
    rw [if_neg hlong, List.drop_append_of_le_length (by omega), scanIn_agrees hgo hk]

theorem skipCrlfIn_agrees (h : skipCrlfIn memory p = some r) (behind : List UInt8) :
    skipCrlf (memory ++ behind) (some p) (memory.length - p) = r := by
  refine scanFromIn_agrees (fun c l b hb => ?_) h
  exact Option.some.inj hb

theorem seekCrlfIn_agrees (h : seekCrlfIn memory p = some r) (behind : List UInt8) :
    seekCrlf (memory ++ behind) (some p) (memory.length - p) = r := by
  refine scanFromIn_agrees (fun c l b hb => ?_) h
  split at hb
  · next hcr =>
    cases hb
    simp [hcr]
  · next hcr =>
    obtain ⟨e, he, rfl⟩ := Option.map_eq_some_iff.mp hb
    obtain ⟨l, rfl⟩ := List.head?_eq_some_iff.mp he
    simp [hcr]

/-- A run that stays in the buffer is the same, whatever stands behind the buffer. -/
theorem CIMFHeader.chunkLoopIn_agrees {fresh : Fresh} {fuel nChunk : Nat}
    {header header' : CIMFHeader} {ret : Int}
    (h : chunkLoopIn fresh fuel header memory p nChunk = some (ret, header', memory'))
    (behind : List UInt8) :
    chunkLoop fresh 0 memory.length fuel header (memory ++ behind) p nChunk =
      some (ret, header', memory' ++ behind) := by
  induction fuel generalizing header memory p nChunk with
  | zero => cases h
  | succ fuel ih =>
    rw [chunkLoopIn] at h
    rw [chunkLoop]
    simp only [Int.natCast_zero, sub_zero, Nat.sub_zero] at h ⊢
    cases hskip : skipCrlfIn memory p with
    | none =>
      rw [hskip] at h
      cases h
    | some q =>
      rw [hskip] at h
      rw [skipCrlfIn_agrees hskip]
      cases q with
      | none =>
        cases h
        rfl
      | some q =>
        simp only at h ⊢
        cases hseek : seekCrlfIn memory q with
        | none =>
          rw [hseek] at h
          cases h
        | some pTemp =>
          rw [hseek] at h
          rw [seekCrlfIn_agrees hseek]
          cases pTemp with
          | none =>
            cases h
            rfl
          | some pTemp =>
            obtain ⟨-, hle, hlt, -⟩ := scanFrom_eq_some_iff.mp (seekCrlfIn_agrees hseek [])
            have htake : ((memory ++ behind).drop q).take (pTemp - q) =
                (memory.drop q).take (pTemp - q) := by
              rw [List.drop_append_of_le_length (by omega), List.take_append_of_le_length]
              rw [List.length_drop]
              omega
            simp only [htake] at h ⊢
            split at h
            · cases h
            · next hnine =>
              obtain ⟨nBytes, hvalue, h⟩ := Option.bind_eq_some_iff.mp h
              rw [if_neg hnine, hvalue]
              simp only [Option.bind_eq_bind, Option.bind_some]
              split at h
              · next hzero =>
                cases h
                rw [if_pos hzero]
              · next hne =>
                split at h
                · cases h
                · next hinside =>
                  rw [if_neg hne, if_neg (by omega), List.set_append_left _ _ (by omega)]
                  have hrest := ih h
                  rwa [List.length_set] at hrest

end

/-! # Size lines -/

/-- Line ends. -/
def IsGapOfEnds (gap : List UInt8) : Prop := ∀ c ∈ gap, c = cr ∨ c = lf

/-- Bytes between line ends. -/
def IsPlainText (text : List UInt8) : Prop := ∀ c ∈ text, c ≠ 0 ∧ c ≠ cr ∧ c ≠ lf

/-- Line ends, and a size line behind them. The size ends at a `CR`, or at a byte in front of a
`LF`. -/
structure SizeLine (text gap size : List UInt8) : Prop where
  gap_ends : IsGapOfEnds gap
  size_plain : IsPlainText size
  stops : ∃ stop behind, text = gap ++ (size ++ stop :: behind) ∧ stop ≠ 0 ∧ stop ≠ lf ∧
    (stop = cr → size ≠ []) ∧ (stop = cr ∨ behind.head? = some lf)

/-- Line ends, and behind them a zero in front of any other, or no more than one byte. -/
def Unended (text : List UInt8) : Prop :=
  ∃ gap size behind, IsGapOfEnds gap ∧ IsPlainText size ∧ text = gap ++ (size ++ behind) ∧
    (behind.head? = some 0 ∨ behind = [] ∧ size.length ≤ 1)

/-- Line ends, and behind them two bytes or more, none of which ends a line or is zero. -/
def Overrun (text : List UInt8) : Prop :=
  ∃ gap size, IsGapOfEnds gap ∧ IsPlainText size ∧ text = gap ++ size ∧ 2 ≤ size.length

/-- Size lines and chunks from `p` on, where the size lines end in the buffer, have at most nine
bytes, all of which have an entry in `hex_table`, and where the chunks end in the buffer. A zero is
written behind each chunk. -/
inductive Bounded : List UInt8 → Nat → List Chunk → Prop where
  | unended {memory : List UInt8} {p : Nat} : Unended (memory.drop p) → Bounded memory p []
  | last {memory gap size : List UInt8} {p : Nat} : SizeLine (memory.drop p) gap size →
      size.length ≤ 9 → hex2Int 0 size = some 0 → Bounded memory p []
  | chunk {memory gap size : List UInt8} {p e : Nat} {nBytes : Int32} {chunks : List Chunk} :
      SizeLine (memory.drop p) gap size → size.length ≤ 9 → hex2Int 0 size = some nBytes →
      nBytes ≠ 0 → ((p + gap.length + size.length + 2 : Nat) : Int) + nBytes.toInt = e →
      e < memory.length → Bounded (memory.set e 0) (e + 2) chunks →
      Bounded memory p (⟨p + gap.length + size.length + 2, nBytes⟩ :: chunks)

/-! # Bodies -/

/-- A size line: a number in hexadecimal, and extensions behind a `';'`. -/
def IsSizeLine (line : List UInt8) (n : Nat) : Prop :=
  ∃ digits extension, line = digits ++ extension ∧ digits ≠ [] ∧
    (∀ c ∈ digits, isHexDigit c = true) ∧ hexValue digits = n ∧ IsPlainText extension ∧
    (extension = [] ∨ extension.head? = some (ascii ';'))

/-- The sizes are those of the data, and the last one is zero. -/
structure ChunkedText.WellFormed (body : ChunkedText) : Prop where
  chunks : ∀ chunk ∈ body.chunks, IsSizeLine chunk.size chunk.data.length ∧ chunk.data ≠ []
  last : IsSizeLine body.last 0

/-- A size line has at most nine bytes, and `Hex2Int` takes it for the number. -/
def ReadAs (line : List UInt8) (n : Nat) : Prop :=
  line.length ≤ 9 ∧ hex2Int 0 line = some (Int32.ofNat n)

instance (line : List UInt8) (n : Nat) : Decidable (ReadAs line n) :=
  inferInstanceAs (Decidable (_ ∧ _))

/-- The sizes are read as what they are. -/
structure ChunkedText.ReadRight (body : ChunkedText) : Prop where
  chunks : ∀ chunk ∈ body.chunks, ReadAs chunk.size chunk.data.length
  last : ReadAs body.last 0

/-- What there is to record of chunks, the first of which begins at `start`. -/
def ChunkText.entries : Nat → List ChunkText → List Chunk
  | _, [] => []
  | start, chunk :: chunks => chunk.entry start :: entries (start + chunk.text.length) chunks

/-- The chunks of the body, which begins at `start`, are recorded in their order, and nothing else. -/
def CIMFHeader.RecordsBody (header : CIMFHeader) (memory : List UInt8) (offs start : Nat)
    (body : ChunkedText) : Prop :=
  ∀ fresh, ∃ ret header' memory', header.ParsesIn fresh memory offs (ret, header', memory') ∧
    header'.miChunkSize = header.miChunkSize + body.chunks.length ∧
    ∀ i chunk, (ChunkText.entries start body.chunks)[i]? = some chunk →
      header'.mpoChunks (header.miChunkSize + i) = chunk

section

variable {go : UInt8 → List UInt8 → Option Bool} {len p : Nat}
  {l gap size text memory rest behind : List UInt8} {r : Option Nat}

/-- A text goes on in one of these ways. -/
theorem line_cases (text : List UInt8) :
    (∃ gap size, SizeLine text gap size) ∨ Unended text ∨ Overrun text := by
  obtain ⟨gap, rest, rfl, hgap, hrest⟩ := exists_span (fun c => c = cr ∨ c = lf) text
  obtain ⟨size, behind, rfl, hsize, hbehind⟩ :=
    exists_span (fun c => c ≠ 0 ∧ c ≠ cr ∧ c ≠ lf) rest
  cases behind with
  | nil =>
    rcases Nat.lt_or_ge size.length 2 with hlt | hge
    · exact Or.inr (Or.inl ⟨gap, size, [], hgap, hsize, rfl, Or.inr ⟨rfl, by omega⟩⟩)
    · exact Or.inr (Or.inr ⟨gap, size, hgap, hsize, by rw [List.append_nil], hge⟩)
  | cons c behind =>
    by_cases hzero : c = 0
    · exact Or.inr (Or.inl ⟨gap, size, c :: behind, hgap, hsize, rfl, Or.inl (by rw [hzero]; rfl)⟩)
    · have hend : c = cr ∨ c = lf := by
        have hnot := hbehind c rfl
        tauto
      have hne : size ≠ [] := by
        rintro rfl
        exact hrest c rfl hend
      refine Or.inl ?_
      rcases hend with rfl | rfl
      · exact ⟨gap, size, hgap, hsize, cr, behind, rfl, hzero, by decide, fun _ => hne, Or.inl rfl⟩
      · -- the last byte of the text in front of the `LF` stops the scanner
        have hlast := hsize _ (List.getLast_mem hne)
        refine ⟨gap, size.dropLast, hgap, fun c hc => hsize c (List.mem_of_mem_dropLast hc),
          size.getLast hne, lf :: behind, ?_, hlast.1, hlast.2.2, fun hcr => absurd hcr hlast.2.1,
          Or.inr rfl⟩
        rw [List.append_cons size.dropLast, List.dropLast_append_getLast]

theorem scanIn_append (h : ∀ a c b, l = a ++ c :: b → c ≠ 0 ∧ go c (b ++ rest) = some true)
    (len : Nat) : scanIn go (l.length + len) (l ++ rest) =
      (scanIn go len rest).map (Option.map (l.length + ·)) := by
  induction l with
  | nil =>
    simp only [List.length_nil, Nat.zero_add, List.nil_append]
    cases scanIn go len rest with
    | none => rfl
    | some r => cases r <;> rfl
  | cons c l ih =>
    obtain ⟨hc, hgo⟩ := h [] c l rfl
    have hrest := ih fun a c' b hl => h (c :: a) c' b (by rw [hl]; rfl)
    rw [List.length_cons, Nat.add_right_comm, List.cons_append, scanIn, if_neg hc, hgo,
      Option.bind_some, if_pos rfl, hrest, Option.map_map]
    congr 1
    funext r
    cases r with
    | none => rfl
    | some k => exact congrArg some (Nat.add_right_comm ..)

theorem scanFromIn_eq (hdrop : memory.drop p = text) :
    scanFromIn go memory p = if text.length < 2 then some none
      else (scanIn go text.length text).map (Option.map (p + ·)) := by
  have hlength := congrArg List.length hdrop
  rw [List.length_drop] at hlength
  unfold scanFromIn
  by_cases hshort : text.length < 2
  · rw [if_pos hshort, if_pos (by omega)]
  · rw [if_neg hshort, if_neg (by omega), hdrop]
    congr 2
    omega

/-- Line ends are passed over. -/
theorem skipCrlfIn_eq (hgap : IsGapOfEnds gap) (hdrop : memory.drop p = gap ++ rest)
    (hrest : ∀ c ∈ rest.head?, c ≠ cr ∧ c ≠ lf) (hlong : 2 ≤ gap.length + rest.length) :
    skipCrlfIn memory p =
      some (if rest.headD 0 = 0 then none else some (p + gap.length)) := by
  have hgo : ∀ a c b, gap = a ++ c :: b → c ≠ 0 ∧
      (some (decide (c = cr ∨ c = lf)) : Option Bool) = some true := by
    intro a c b hsplit
    have hc := hgap c (by simp [hsplit])
    refine ⟨?_, by rw [decide_eq_true hc]⟩
    rintro rfl
    exact absurd hc (by decide)
  unfold skipCrlfIn
  rw [scanFromIn_eq hdrop, List.length_append, if_neg (by omega),
    scanIn_append ?hends]
  case hends => exact hgo
  cases rest with
  | nil => rfl
  | cons c rest =>
    obtain ⟨hcr, hlf⟩ := hrest c rfl
    simp only [List.length_cons, scanIn, List.headD_cons]
    by_cases hzero : c = 0
    · simp [hzero]
    · simp [hzero, hcr, hlf]

theorem skipCrlfIn_short (hdrop : memory.drop p = text) (hshort : text.length < 2) :
    skipCrlfIn memory p = some none := by
  unfold skipCrlfIn
  rw [scanFromIn_eq hdrop, if_pos hshort]

/-- Plain text is passed over, if behind it no `LF` follows. -/
theorem seekCrlfIn_append (hsize : IsPlainText size) (hdrop : memory.drop p = size ++ rest)
    (hrest : ∃ c ∈ rest.head?, c ≠ lf) (hlong : 2 ≤ size.length + rest.length) :
    seekCrlfIn memory p =
      (scanIn (fun c rest => if c = cr then some false else rest.head?.map (· ≠ lf)) rest.length
        rest).map (Option.map (p + size.length + ·)) := by
  have hgo : ∀ a c b, size = a ++ c :: b → c ≠ 0 ∧
      (if c = cr then some false else (b ++ rest).head?.map (· ≠ lf)) = some true := by
    intro a c b hsplit
    obtain ⟨hzero, hcr, -⟩ := hsize c (by simp [hsplit])
    refine ⟨hzero, ?_⟩
    rw [if_neg hcr]
    cases b with
    | nil =>
      obtain ⟨e, he, hlf⟩ := hrest
      rw [List.nil_append, Option.mem_def.mp he]
      exact congrArg some (decide_eq_true hlf)
    | cons e b => exact congrArg some (decide_eq_true (hsize e (by simp [hsplit])).2.2)
  unfold seekCrlfIn
  rw [scanFromIn_eq hdrop, List.length_append, if_neg (by omega),
    scanIn_append ?hplain, Option.map_map]
  case hplain => exact hgo
  congr 1
  funext r
  cases r with
  | none => rfl
  | some k => exact congrArg some (Nat.add_assoc ..).symm

theorem seekCrlfIn_short (hdrop : memory.drop p = text) (hshort : text.length < 2) :
    seekCrlfIn memory p = some none := by
  unfold seekCrlfIn
  rw [scanFromIn_eq hdrop, if_pos hshort]

theorem skipCrlfIn_plain (hgap : IsGapOfEnds gap) (hsize : IsPlainText size) (hne : size ≠ [])
    (hdrop : memory.drop p = gap ++ (size ++ rest)) (hlong : 2 ≤ (memory.drop p).length) :
    skipCrlfIn memory p = some (some (p + gap.length)) := by
  obtain ⟨c, size, rfl⟩ := List.exists_cons_of_ne_nil hne
  have hc := hsize c List.mem_cons_self
  rw [hdrop, List.length_append] at hlong
  rw [skipCrlfIn_eq hgap hdrop ?_ hlong, List.cons_append, List.headD_cons, if_neg hc.1]
  rintro c ⟨⟩
  exact hc.2

/-! # Rounds -/

theorem SizeLine.skip (h : SizeLine (memory.drop p) gap size) :
    skipCrlfIn memory p = some (some (p + gap.length)) := by
  obtain ⟨stop, behind, hdrop, hzero, hlf, hcr, hends⟩ := h.stops
  have hhead : (size ++ stop :: behind).headD 0 ≠ 0 ∧
      ∀ c ∈ (size ++ stop :: behind).head?, c ≠ cr ∧ c ≠ lf := by
    cases size with
    | nil =>
      refine ⟨hzero, ?_⟩
      rintro c ⟨⟩
      exact ⟨fun heq => hcr heq rfl, hlf⟩
    | cons c size =>
      have hc := h.size_plain c List.mem_cons_self
      refine ⟨hc.1, ?_⟩
      rintro c ⟨⟩
      exact hc.2
  have hlong : 2 ≤ (size ++ stop :: behind).length := by
    rw [List.length_append, List.length_cons]
    rcases hends with hstop | hbehind
    · have hpos := List.length_pos_of_ne_nil (hcr hstop)
      omega
    · cases behind with
      | nil => cases hbehind
      | cons c behind => rw [List.length_cons]; omega
  rw [skipCrlfIn_eq h.gap_ends hdrop hhead.2 (by omega), if_neg hhead.1]

theorem SizeLine.seek (h : SizeLine (memory.drop p) gap size) :
    seekCrlfIn memory (p + gap.length) = some (some (p + gap.length + size.length)) := by
  obtain ⟨stop, behind, hdrop, hzero, hlf, hcr, hends⟩ := h.stops
  have hlong : 2 ≤ size.length + (stop :: behind).length := by
    rw [List.length_cons]
    rcases hends with hstop | hbehind
    · have hpos := List.length_pos_of_ne_nil (hcr hstop)
      omega
    · cases behind with
      | nil => cases hbehind
      | cons c behind => rw [List.length_cons]; omega
  rw [seekCrlfIn_append h.size_plain (drop_of_drop hdrop) ⟨stop, rfl, hlf⟩ hlong, List.length_cons, scanIn,
    if_neg hzero]
  by_cases hstop : stop = cr
  · rw [if_pos hstop]
    rfl
  · rw [if_neg hstop, (hends.resolve_left hstop)]
    rfl

theorem SizeLine.strlength (h : SizeLine (memory.drop p) gap size) :
    (memory.drop (p + gap.length)).take (p + gap.length + size.length - (p + gap.length)) =
      size := by
  obtain ⟨stop, behind, hdrop, -⟩ := h.stops
  rw [drop_of_drop hdrop, Nat.add_sub_cancel_left, List.take_left]

/-- Nothing is found, without a read behind the buffer. -/
theorem Unended.scans (h : Unended (memory.drop p)) : skipCrlfIn memory p = some none ∨
    ∃ q, skipCrlfIn memory p = some (some q) ∧ seekCrlfIn memory q = some none := by
  obtain ⟨gap, size, behind, hgap, hsize, hdrop, hends⟩ := h
  by_cases hshort : (memory.drop p).length < 2
  · exact Or.inl (skipCrlfIn_short rfl hshort)
  · rw [hdrop, List.length_append] at hshort
    cases size with
    | nil =>
      refine Or.inl ?_
      rw [skipCrlfIn_eq hgap hdrop ?_ (by omega), if_pos ?_]
      · rcases hends with hzero | ⟨hnil, -⟩
        · rw [List.nil_append, List.headD_eq_head?_getD, hzero]
          rfl
        · rw [hnil]
          rfl
      · rcases hends with hzero | ⟨hnil, -⟩
        · intro c hc
          rw [List.nil_append, hzero] at hc
          cases hc
          exact ⟨by decide, by decide⟩
        · rw [hnil]
          exact nofun
    | cons c size =>
      refine Or.inr ⟨p + gap.length, ?_, ?_⟩
      · exact skipCrlfIn_plain hgap hsize (List.cons_ne_nil c size) hdrop
          (by rw [hdrop, List.length_append]; omega)
      · rcases hends with hzero | ⟨rfl, hone⟩
        · obtain ⟨behind, rfl⟩ : ∃ l, behind = 0 :: l := List.head?_eq_some_iff.mp hzero
          rw [seekCrlfIn_append hsize (drop_of_drop hdrop) ⟨0, rfl, by decide⟩
            (by simp only [List.length_cons]; omega)]
          rfl
        · apply seekCrlfIn_short (drop_of_drop hdrop)
          rw [List.append_nil]
          omega

theorem SizeLine.not_unended (h : SizeLine (memory.drop p) gap size) :
    ¬ Unended (memory.drop p) := by
  intro hunended
  rcases hunended.scans with hskip | ⟨q, hskip, hseek⟩
  · cases hskip.symm.trans h.skip
  · cases hskip.symm.trans h.skip
    cases hseek.symm.trans h.seek

/-- There is only one. -/
theorem SizeLine.unique {gap' size' : List UInt8} (h : SizeLine (memory.drop p) gap size)
    (h' : SizeLine (memory.drop p) gap' size') : gap'.length = gap.length ∧ size' = size := by
  have hgap : p + gap.length = p + gap'.length :=
    Option.some.inj (Option.some.inj (h.skip.symm.trans h'.skip))
  have hseek := h.seek
  rw [hgap] at hseek
  have hsize := Option.some.inj (Option.some.inj (hseek.symm.trans h'.seek))
  have hstrlength := h.strlength
  rw [hgap, hsize, h'.strlength] at hstrlength
  exact ⟨by omega, hstrlength⟩

variable {header header' : CIMFHeader} {fresh : Fresh} {fuel nChunk : Nat} {memory' : List UInt8}
  {ret : Int} {chunks : List Chunk} {offs : Nat}

namespace CIMFHeader

/-- A round with a size line. -/
theorem chunkLoopIn_line (h : SizeLine (memory.drop p) gap size) (fresh : Fresh) (fuel : Nat)
    (header : CIMFHeader) (nChunk : Nat) :
    chunkLoopIn fresh (fuel + 1) header memory p nChunk =
      if 9 < size.length then none
      else (hex2Int 0 size).bind fun nBytes =>
        let pStart := p + gap.length + size.length + 2
        if nBytes = 0 then
          some ((pStart : Int), { header with meChunkFinished := .chunkd, miChunkSize := nChunk },
            memory)
        else
          let pEnd := (pStart : Int) + nBytes.toInt
          if pEnd < 0 ∨ memory.length ≤ pEnd then none
          else
            chunkLoopIn fresh fuel
              { header.getChunks fresh nChunk with
                mpoChunks :=
                  Function.update (header.getChunks fresh nChunk).mpoChunks nChunk ⟨pStart, nBytes⟩ }
              (memory.set pEnd.toNat 0) (pEnd.toNat + 2) (nChunk + 1) := by
  rw [chunkLoopIn]
  simp only [h.skip, h.seek, h.strlength]
  rfl

theorem chunkLoopIn_unended (h : Unended (memory.drop p)) (fresh : Fresh) (fuel : Nat)
    (header : CIMFHeader) (nChunk : Nat) :
    ∃ ret, chunkLoopIn fresh (fuel + 1) header memory p nChunk =
      some (ret, { header with miChunkSize := nChunk }, memory) := by
  rw [chunkLoopIn]
  rcases h.scans with hskip | ⟨q, hskip, hseek⟩
  · rw [hskip]
    exact ⟨_, rfl⟩
  · rw [hskip]
    simp only [hseek]
    exact ⟨_, rfl⟩

/-- A scanner reads the byte behind the buffer. -/
theorem chunkLoopIn_overrun (h : Overrun (memory.drop p)) (fresh : Fresh) (fuel : Nat)
    (header : CIMFHeader) (nChunk : Nat) :
    chunkLoopIn fresh fuel header memory p nChunk = none := by
  obtain ⟨gap, size, hgap, hsize, hdrop, hlong⟩ := h
  cases fuel with
  | zero => rfl
  | succ fuel =>
    have hne : size ≠ [] := List.ne_nil_of_length_pos (by omega)
    have hskip : skipCrlfIn memory p = some (some (p + gap.length)) := by
      apply skipCrlfIn_plain hgap hsize hne
      · rw [hdrop, List.append_nil size]
      · rw [hdrop, List.length_append]
        omega
    have hseek : seekCrlfIn memory (p + gap.length) = none := by
      have hc := hsize _ (List.getLast_mem hne)
      have hsplit : memory.drop (p + gap.length) = size.dropLast ++ [size.getLast hne] := by
        rw [drop_of_drop hdrop, List.dropLast_append_getLast]
      have hinit : IsPlainText size.dropLast := fun e he => hsize e (List.mem_of_mem_dropLast he)
      rw [seekCrlfIn_append hinit hsplit ⟨_, rfl, hc.2.2⟩
        (by rw [List.length_dropLast, List.length_singleton]; omega), List.length_singleton, scanIn,
        if_neg hc.1, if_neg hc.2.1]
      rfl
    rw [chunkLoopIn, hskip]
    simp only [hseek]

/-! # Runs -/

/-- What becomes of the table when a chunk is recorded. -/
theorem chunks_record (header : CIMFHeader) (fresh : Fresh) (nChunk : Nat) (chunk : Chunk) :
    CIMFHeader.chunks { header.getChunks fresh nChunk with
      mpoChunks := Function.update (header.getChunks fresh nChunk).mpoChunks nChunk chunk } =
      header.chunks.record fresh.chunks nChunk chunk := by
  rw [GrowTable.record, ← chunks_getChunks]
  rfl

/-- The table of `header'` is that of `header` with the chunks recorded from `nChunk` on. -/
def Records (fresh : Fresh) (header : CIMFHeader) (nChunk : Nat) (chunks : List Chunk)
    (header' : CIMFHeader) : Prop :=
  header'.chunks = { header.chunks.recordAll fresh.chunks nChunk chunks with
    size := nChunk + chunks.length }

theorem Records.cons {chunk : Chunk}
    (h : Records fresh { header.getChunks fresh nChunk with
      mpoChunks := Function.update (header.getChunks fresh nChunk).mpoChunks nChunk chunk }
      (nChunk + 1) chunks header') : Records fresh header nChunk (chunk :: chunks) header' := by
  unfold Records at h ⊢
  rw [h, chunks_record, GrowTable.recordAll, List.length_cons, Nat.add_right_comm, Nat.add_assoc]

theorem Records.count (h : Records fresh header nChunk chunks header') :
    header'.miChunkSize = nChunk + chunks.length :=
  congrArg GrowTable.size h

theorem Records.entry (h : Records fresh header header.miChunkSize chunks header')
    (hfits : header.chunks.Fits chunks.length) {k : Nat} {chunk : Chunk}
    (hk : chunks[k]? = some chunk) : header'.mpoChunks (header.miChunkSize + k) = chunk := by
  have hne : chunks ≠ [] := by
    rintro rfl
    cases hk
  have hentries : header'.mpoChunks = _ := congrArg GrowTable.entries h
  rw [hentries]
  exact (GrowTable.recordAll_fits hne hfits).2.2 k chunk hk

/-- New memory is all that is left of the first chunk. -/
theorem Records.lost {keyValues : Nat → Nat → KeyValue} {other : Chunk}
    (h : Records ⟨keyValues, fun _ _ => other⟩ header header.miChunkSize chunks header')
    (hsound : header.chunks.Sound) (hnot : ¬ header.chunks.Fits chunks.length) :
    header'.mpoChunks header.miChunkSize = other ∧ 0 < chunks.length := by
  have hentries : header'.mpoChunks = _ := congrArg GrowTable.entries h
  rw [hentries]
  refine ⟨GrowTable.recordAll_not_fits hsound hnot other, Nat.pos_of_ne_zero fun hzero => hnot ?_⟩
  rw [hzero]
  exact Or.inl hsound.size_le

end CIMFHeader

theorem Bounded.inside (h : Bounded memory p chunks) :
    ∀ chunk ∈ chunks, chunk.Inside memory.length := by
  induction h with
  | unended _ => exact nofun
  | last _ _ _ => exact nofun
  | chunk _ _ _ _ hend hlt _ ih =>
    rw [List.length_set] at ih
    intro chunk hchunk
    rcases List.mem_cons.mp hchunk with rfl | hchunk
    · exact ⟨Int.natCast_nonneg _, by simp only [hend]; omega⟩
    · exact ih chunk hchunk

/-- A bounded body is parsed. -/
theorem Bounded.parsed (h : Bounded memory p chunks) : ∃ fuel, ∀ fresh header nChunk,
    ∃ ret header' memory',
      chunkLoopIn fresh fuel header memory p nChunk = some (ret, header', memory') ∧
        Records fresh header nChunk chunks header' := by
  induction h with
  | unended hline =>
    refine ⟨1, fun fresh header nChunk => ?_⟩
    obtain ⟨ret, hloop⟩ := chunkLoopIn_unended hline fresh 0 header nChunk
    exact ⟨ret, _, _, hloop, rfl⟩
  | last hline hsize hvalue =>
    refine ⟨1, fun fresh header nChunk => ?_⟩
    rw [chunkLoopIn_line hline, if_neg (Nat.not_lt.mpr hsize), hvalue, Option.bind_some]
    exact ⟨_, _, _, rfl, rfl⟩
  | chunk hline hsize hvalue hne hend hlt _ ih =>
    obtain ⟨fuel, hrest⟩ := ih
    refine ⟨fuel + 1, fun fresh header nChunk => ?_⟩
    rw [chunkLoopIn_line hline, if_neg (Nat.not_lt.mpr hsize), hvalue, Option.bind_some]
    simp only [if_neg hne, hend, Int.toNat_natCast]
    rw [if_neg (by omega)]
    obtain ⟨ret, header', memory', hloop, hrecords⟩ := hrest fresh _ (nChunk + 1)
    exact ⟨ret, header', memory', hloop, hrecords.cons⟩

namespace CIMFHeader

/-- What is parsed is bounded. -/
theorem bounded_of_parsed
    (h : chunkLoopIn fresh fuel header memory p nChunk = some (ret, header', memory')) :
    ∃ chunks, Bounded memory p chunks ∧ Records fresh header nChunk chunks header' := by
  induction fuel generalizing header memory p nChunk with
  | zero => cases h
  | succ fuel ih =>
    rcases line_cases (memory.drop p) with ⟨gap, size, hline⟩ | hunended | hoverrun
    · rw [chunkLoopIn_line hline] at h
      split at h
      · cases h
      · next hsize =>
        obtain ⟨nBytes, hvalue, h⟩ := Option.bind_eq_some_iff.mp h
        simp only at h
        split at h
        · next hzero =>
          cases h
          exact ⟨[], .last hline (Nat.not_lt.mp hsize) (hzero ▸ hvalue), rfl⟩
        · next hne =>
          split at h
          · cases h
          · next hinside =>
            obtain ⟨chunks, hbounded, hrecords⟩ := ih h
            exact ⟨_, .chunk hline (Nat.not_lt.mp hsize) hvalue hne (by omega) (by omega) hbounded,
              hrecords.cons⟩
    · obtain ⟨ret', hloop⟩ := chunkLoopIn_unended hunended fresh fuel header nChunk
      cases hloop.symm.trans h
      exact ⟨[], .unended hunended, rfl⟩
    · rw [chunkLoopIn_overrun hoverrun] at h
      cases h

theorem parsesIn_bounded (h : header.ParsesIn fresh memory offs (ret, header', memory')) :
    ∃ chunks, Bounded memory offs chunks ∧
      Records fresh header header.miChunkSize chunks header' := by
  obtain ⟨fuel, hloop⟩ := h
  obtain ⟨chunks, hbounded, hrecords⟩ := bounded_of_parsed hloop
  exact ⟨chunks, hbounded, hrecords⟩

/-- The loop stays in the buffer exactly for bounded bodies whose chunks do not make the table lose
some of them. -/
theorem staysIn_iff (hsound : header.chunks.Sound) : header.StaysIn memory offs ↔
    ∃ chunks, Bounded memory offs chunks ∧ header.chunks.Fits chunks.length := by
  constructor
  · intro hstays
    -- new memory that holds chunks behind the buffer
    let outside : Chunk := ⟨memory.length + 1, 0⟩
    obtain ⟨ret, header', memory', hparses, hinside⟩ :=
      hstays ⟨fun _ _ => ⟨0, 0, 0, 0⟩, fun _ _ => outside⟩
    obtain ⟨chunks, hbounded, hrecords⟩ := parsesIn_bounded hparses
    refine ⟨chunks, hbounded, ?_⟩
    by_contra hnot
    obtain ⟨hlost, hpos⟩ := hrecords.lost hsound hnot
    have hmem := (hinside header.miChunkSize le_rfl (by rw [hrecords.count]; omega)).2
    rw [hlost] at hmem
    have hzero : outside.length.toInt = 0 := rfl
    rw [hzero] at hmem
    simp only [outside] at hmem
    omega
  · rintro ⟨chunks, hbounded, hfits⟩ fresh
    obtain ⟨fuel, hrun⟩ := hbounded.parsed
    obtain ⟨ret, header', memory', hloop, hrecords⟩ :=
      hrun fresh { header with meChunkFinished := .chunk } header.miChunkSize
    refine ⟨ret, header', memory', ⟨fuel, hloop⟩, fun i hle hlt => ?_⟩
    rw [hrecords.count] at hlt
    obtain ⟨k, rfl⟩ := Nat.exists_eq_add_of_le hle
    have hk : k < chunks.length := Nat.lt_of_add_lt_add_left hlt
    rw [hrecords.entry hfits (List.getElem?_eq_getElem hk)]
    exact hbounded.inside _ (List.getElem_mem hk)

end CIMFHeader

/-! # Bodies that are recorded -/

theorem IsSizeLine.plain {n : Nat} (h : IsSizeLine size n) : IsPlainText size ∧ size ≠ [] := by
  obtain ⟨digits, extension, rfl, hne, hdigits, -, hextension, -⟩ := h
  refine ⟨fun c hc => ?_, fun hnil => hne (List.append_eq_nil_iff.mp hnil).1⟩
  rcases List.mem_append.mp hc with hc | hc
  · have hdigit := hdigits c hc
    exact ⟨isHexDigit_ne hdigit rfl, isHexDigit_ne hdigit rfl, isHexDigit_ne hdigit rfl⟩
  · exact hextension c hc

theorem IsSizeLine.sizeLine {n : Nat} (h : IsSizeLine size n) (hgap : IsGapOfEnds gap)
    (hdrop : memory.drop p = gap ++ (size ++ cr :: rest)) : SizeLine (memory.drop p) gap size :=
  ⟨hgap, h.plain.1, cr, rest, hdrop, by decide, by decide, fun _ => h.plain.2, Or.inl rfl⟩

/-- Behind a chunk, where a zero has been written. -/
theorem drop_chunk {chunk : ChunkText} (hdrop : memory.drop p = chunk.text ++ rest) :
    (memory.set (p + chunk.text.length - 2) 0).drop (p + chunk.text.length - 2 + 2) = rest := by
  have htext := chunk.length_text
  rw [List.drop_set_of_lt (by omega), Nat.sub_add_cancel (by omega), ← List.drop_drop, hdrop,
    List.drop_left]

/-- A well-formed body is bounded, with its chunks, exactly if its sizes are read right. -/
theorem bounded_body_iff {body : ChunkedText} (hbody : body.WellFormed)
    (hgap : IsGapOfEnds gap) (hdrop : memory.drop p = gap ++ body.text)
    (hlen : memory.length < 2 ^ 31) :
    Bounded memory p (ChunkText.entries (p + gap.length) body.chunks) ↔ body.ReadRight := by
  obtain ⟨chunks, last, trailer⟩ := body
  induction chunks generalizing memory p gap with
  | nil =>
    have hline := hbody.last.sizeLine hgap hdrop
    constructor
    · intro hbounded
      cases hbounded with
      | unended hunended => exact absurd hunended hline.not_unended
      | last hline' hsize hvalue =>
        obtain ⟨-, rfl⟩ := hline.unique hline'
        exact ⟨List.forall_mem_nil _, hsize, hvalue⟩
    · intro hright
      exact .last hline hright.last.1 hright.last.2
  | cons chunk chunks ih =>
    obtain ⟨hsize, hdata⟩ := hbody.chunks chunk List.mem_cons_self
    have hrest : ChunkedText.WellFormed ⟨chunks, last, trailer⟩ :=
      ⟨fun c hc => hbody.chunks c (List.mem_cons_of_mem chunk hc), hbody.last⟩
    have hdrop' : memory.drop p = gap ++ (chunk.size ++ cr :: (lf :: (chunk.data ++
        ([cr, lf] ++ ChunkedText.text ⟨chunks, last, trailer⟩)))) := by
      simp [hdrop, ChunkedText.text, ChunkText.text]
    have hline := hsize.sizeLine hgap hdrop'
    have hlength := congrArg List.length hdrop'
    simp only [List.length_drop, List.length_append, List.length_cons, List.length_nil] at hlength
    have hpos := List.length_pos_of_ne_nil hdata
    have hint : (Int32.ofNat chunk.data.length).toInt = chunk.data.length :=
      Int32.toInt_ofNat_of_lt (by omega)
    have hne : Int32.ofNat chunk.data.length ≠ 0 := by
      rw [ne_eq, int32_ofNat_eq_zero (by omega)]
      omega
    have hend : ((p + gap.length + chunk.size.length + 2 : Nat) : Int) +
        (Int32.ofNat chunk.data.length).toInt =
        (p + gap.length + chunk.text.length - 2 : Nat) := by
      have htext := chunk.length_text
      rw [hint]
      omega
    have hchunk : memory.drop (p + gap.length) =
        chunk.text ++ ChunkedText.text ⟨chunks, last, trailer⟩ := by
      rw [drop_of_drop hdrop']
      simp [ChunkText.text]
    have hbehind := drop_chunk hchunk
    have hstart : p + gap.length + chunk.text.length - 2 + 2 + ([] : List UInt8).length =
        p + gap.length + chunk.text.length := by
      have htext := chunk.length_text
      rw [List.length_nil]
      omega
    have hempty : IsGapOfEnds [] := List.forall_mem_nil _
    have hnext := ih hempty (by rw [List.length_set]; exact hlen) hrest hbehind
    rw [hstart] at hnext
    constructor
    · intro hbounded
      rw [ChunkText.entries] at hbounded
      generalize hentry : chunk.entry (p + gap.length) = entry at hbounded
      cases hbounded with
      | chunk hline' hnine hvalue _ hend' _ hrest' =>
        obtain ⟨hgap', rfl⟩ := hline.unique hline'
        have hnBytes := congrArg Chunk.length hentry
        simp only [ChunkText.entry] at hnBytes
        subst hnBytes
        rw [hgap', hend] at hend'
        cases Int.ofNat.inj hend'
        have hright := hnext.mp hrest'
        refine ⟨fun c hc => ?_, hright.last⟩
        rcases List.mem_cons.mp hc with rfl | hc
        · exact ⟨hnine, hvalue⟩
        · exact hright.chunks c hc
    · intro hright
      have hchunk := hright.chunks chunk List.mem_cons_self
      refine .chunk hline hchunk.1 hchunk.2 hne hend (by have := chunk.length_text; omega) ?_
      exact hnext.mpr ⟨fun c hc => hright.chunks c (List.mem_cons_of_mem chunk hc), hright.last⟩

theorem length_entries (start : Nat) (chunks : List ChunkText) :
    (ChunkText.entries start chunks).length = chunks.length := by
  induction chunks generalizing start with
  | nil => rfl
  | cons chunk chunks ih => rw [ChunkText.entries, List.length_cons, ih, List.length_cons]

/-- The chunks of a well-formed body are recorded exactly if its sizes are read right and the table
does not lose some of the chunks. -/
theorem recordsBody_iff (hsound : header.chunks.Sound) {body : ChunkedText}
    (hbody : body.WellFormed) (hgap : IsGapOfEnds gap) (hdrop : memory.drop offs = gap ++ body.text)
    (hlen : memory.length < 2 ^ 31) :
    header.RecordsBody memory offs (offs + gap.length) body ↔
      body.ReadRight ∧ header.chunks.Fits body.chunks.length := by
  have hcount := length_entries (offs + gap.length) body.chunks
  rw [← bounded_body_iff hbody hgap hdrop hlen]
  unfold CIMFHeader.RecordsBody
  generalize ChunkText.entries (offs + gap.length) body.chunks = entries at hcount ⊢
  rw [← hcount]
  constructor
  · intro hrecorded
    -- new memory that does not hold the first chunk
    obtain ⟨other, hother⟩ := exists_ne (entries.headD ⟨0, 0⟩)
    obtain ⟨ret, header', memory', hparses, hsize, hentries⟩ :=
      hrecorded ⟨fun _ _ => ⟨0, 0, 0, 0⟩, fun _ _ => other⟩
    obtain ⟨chunks, hbounded, hrecords⟩ := parsesIn_bounded hparses
    have hlength : chunks.length = entries.length := by
      have hsame := hrecords.count
      omega
    have hfits : header.chunks.Fits chunks.length := by
      by_contra hnot
      obtain ⟨hlost, hpos⟩ := hrecords.lost hsound hnot
      cases entries with
      | nil => exact absurd hpos (by rw [hlength]; exact Nat.lt_irrefl 0)
      | cons first rest => exact hother (hlost.symm.trans (hentries 0 first rfl))
    have hchunks : chunks = entries := by
      refine List.ext_getElem hlength fun k hk hk' => ?_
      exact (hrecords.entry hfits (List.getElem?_eq_getElem hk)).symm.trans
        (hentries k _ (List.getElem?_eq_getElem hk'))
    rw [← hchunks]
    exact ⟨hbounded, hfits⟩
  · rintro ⟨hbounded, hfits⟩ fresh
    obtain ⟨fuel, hrun⟩ := hbounded.parsed
    obtain ⟨ret, header', memory', hloop, hrecords⟩ :=
      hrun fresh { header with meChunkFinished := .chunk } header.miChunkSize
    exact ⟨ret, header', memory', ⟨fuel, hloop⟩, hrecords.count, fun i chunk hi =>
      Records.entry hrecords hfits hi⟩

/-- The loop is safe for bounded bodies, and records well-formed ones where it reads their sizes
right, if the table does not lose some of the chunks. -/
theorem parseChunked_iff (hsound : header.chunks.Sound) (hlen : memory.length < 2 ^ 31)
    (offs : Nat) :
    (header.StaysIn memory offs ↔
      ∃ chunks, Bounded memory offs chunks ∧ header.chunks.Fits chunks.length) ∧
    ∀ gap body, IsGapOfEnds gap → ChunkedText.WellFormed body →
      memory.drop offs = gap ++ body.text →
      (header.RecordsBody memory offs (offs + gap.length) body ↔
        body.ReadRight ∧ header.chunks.Fits body.chunks.length) :=
  ⟨staysIn_iff hsound, fun _ _ hgap hbody hdrop => recordsBody_iff hsound hbody hgap hdrop hlen⟩

end

/-- The size `9`, and one byte of data. -/
def shortChunk : List UInt8 := [57, 13, 10, 49]

/-- A zero is written eight bytes behind the buffer. -/
theorem not_staysIn_shortChunk :
    ¬ (CIMFHeader.init (fun _ => ⟨0, 0, 0, 0⟩) fun _ => ⟨0, 0⟩).StaysIn shortChunk 0 := by
  intro hstays
  obtain ⟨ret, header', memory', ⟨fuel, hloop⟩, -⟩ :=
    hstays ⟨fun _ _ => ⟨0, 0, 0, 0⟩, fun _ _ => ⟨0, 0⟩⟩
  have hline : SizeLine (shortChunk.drop 0) [] [57] :=
    ⟨List.forall_mem_nil _, List.all_iff_forall_prop.mp rfl, 13, [10, 49], rfl, by decide, by decide,
      fun _ => List.cons_ne_nil _ _, Or.inl rfl⟩
  cases fuel with
  | zero => cases hloop
  | succ fuel =>
    rw [chunkLoopIn_line hline] at hloop
    cases hloop

/-- One chunk, of one byte. -/
def oneChunk : ChunkedText := ⟨[⟨[49], [97]⟩], [48], []⟩

theorem parseChunked_oneChunk :
    (CIMFHeader.init (fun _ => ⟨0, 0, 0, 0⟩) fun _ => ⟨0, 0⟩).StaysIn oneChunk.text 0 ∧
      (CIMFHeader.init (fun _ => ⟨0, 0, 0, 0⟩) fun _ => ⟨0, 0⟩).RecordsBody oneChunk.text 0 0
        oneChunk := by
  have hsound := (CIMFHeader.sound_init (fun _ => ⟨0, 0, 0, 0⟩) fun _ => ⟨0, 0⟩).2
  have hbody : oneChunk.WellFormed := by
    refine ⟨fun chunk hchunk => ?_, [48], [], rfl, by decide, List.all_eq_true.mp rfl, rfl, nofun,
      Or.inl rfl⟩
    rw [List.mem_singleton.mp hchunk]
    exact ⟨⟨[49], [], rfl, by decide, List.all_eq_true.mp rfl, rfl, nofun, Or.inl rfl⟩, by decide⟩
  have hright : oneChunk.ReadRight :=
    ⟨fun chunk hchunk => by rw [List.mem_singleton.mp hchunk]; decide, by decide⟩
  have hlen : oneChunk.text.length < 2 ^ 31 := by decide
  have hempty : IsGapOfEnds [] := List.forall_mem_nil _
  obtain ⟨hstays, hrecords⟩ := parseChunked_iff hsound hlen 0
  refine ⟨hstays.mpr ⟨ChunkText.entries 0 oneChunk.chunks, ?_, Or.inl (by decide)⟩, ?_⟩
  · exact (bounded_body_iff hbody hempty rfl hlen).mpr hright
  · exact (hrecords [] oneChunk hempty hbody rfl).mpr ⟨hright, Or.inl (by decide)⟩

end HTTPClient
