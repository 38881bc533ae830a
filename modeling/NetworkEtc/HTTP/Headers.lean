-- SUMMARY: Requests, and where the server's parser takes their header lines to end.
import Mathlib.Data.Bool.AllAny
import NetworkEtc.HTTP.IMF
import NetworkEtc.HTTPClient.Response

/-!
# Where header lines end

A request is a request line, header lines, an empty line and a body. The server's parser goes on until
there is no more line to be read.
-/

namespace HTTP

open Library Library.Printf HTTPClient

/-- The texts of the line are the method, the URI and the version. -/
structure Request where
  line : Status
  lines : List Line
  body : List UInt8
  deriving DecidableEq

namespace Request

/-- Where the empty line begins. -/
def headEnd (r : Request) : Nat := r.line.text.length + (r.lines.flatMap Line.text).length

def text (r : Request) : List UInt8 :=
  r.line.text ++ (r.lines.flatMap Line.text ++ cr :: lf :: r.body)

/-- The request, once its line has been parsed. -/
def begun (r : Request) : List UInt8 :=
  r.line.parsed ++ (r.lines.flatMap Line.text ++ cr :: lf :: r.body)

structure Good (r : Request) : Prop where
  line : r.line.Good
  lines : ∀ line ∈ r.lines, line.Good

/-- The server records the header lines and stops at the empty line, and so does the client, if the
lines do not announce a body in chunks to it: whatever new objects and tables hold, and whatever stands
behind the request. -/
def EndsAtBlank (r : Request) : Prop :=
  ∀ (moHeaderBuffer : Nat → KeyValue) fresh behind, ∃ header memory,
    (CIMFHeader.init moHeaderBuffer).parse fresh (r.begun ++ behind) 0 r.text.length
      r.line.text.length = ((r.headEnd : Int), header, memory) ∧
    header.client.pairs memory = r.lines.map Line.field ∧
    (announced r.lines = false → ∀ moHeaderBuffer moChunkBuffer fresh, ∃ header' memory',
      (HTTPClient.CIMFHeader.init moHeaderBuffer moChunkBuffer).parse fresh (r.begun ++ behind) 0
        r.text.length r.line.text.length = some ((r.headEnd : Int), header', memory') ∧
      header'.miHeaderSize = header.miHeaderSize ∧
      (∀ i < header.miHeaderSize, header'.mpoHeaders i = header.mpoHeaders i) ∧
      header'.pairs memory' = header.client.pairs memory)

end Request

/-- A header line is read from the bytes on: they have a colon with no zero in front of it, then
blanks, then at least two bytes, from a visible one on. A `CR`, a byte in front of a `LF` or the last
byte comes before any zero there. -/
def ReadsLine (bytes : List UInt8) : Prop :=
  ∃ p value q, p < value ∧ value ≤ q ∧ q < bytes.length ∧ value + 2 ≤ bytes.length ∧
    bytes.getD p 0 = ascii ':' ∧ (∀ j < p, bytes.getD j 0 ≠ ascii ':' ∧ bytes.getD j 0 ≠ 0) ∧
    isBlank (bytes.getD value 0) = false ∧
    (∀ j, p < j → j < value → isBlank (bytes.getD j 0) = true ∧ bytes.getD j 0 ≠ 0) ∧
    (bytes.getD q 0 = cr ∨ bytes.getD (q + 1) 0 = lf ∨ q + 1 = bytes.length) ∧
    ∀ j, value ≤ j → j ≤ q → bytes.getD j 0 ≠ 0

section

variable {go : UInt8 → UInt8 → Bool} {least size : Int} {memory : List UInt8} {p q : Nat}

/-- A scanner that wants no more bytes than there are stops, if there is a byte that stops it with no
zero in front of it. -/
theorem scanFrom_isSome (hleast : least ≤ size) (hpq : p ≤ q) (hq : (q : Int) - p < size)
    (hstop : go (memory.getD q 0) (memory.getD (q + 1) 0) = false)
    (hzero : ∀ j, p ≤ j → j ≤ q → memory.getD j 0 ≠ 0) :
    ∃ r, scanFrom least go memory (some p) size = some r := by
  induction hk : q - p using Nat.strong_induction_on generalizing q with
  | h k ih =>
    by_cases hfirst : ∃ j, p ≤ j ∧ j < q ∧ go (memory.getD j 0) (memory.getD (j + 1) 0) = false
    · obtain ⟨j, hj, hjq, hgo⟩ := hfirst
      exact ih (j - p) (by omega) hj (by omega) hgo
        (fun i hi hij => hzero i hi (hij.trans hjq.le)) rfl
    · simp only [not_exists, not_and, Bool.not_eq_false] at hfirst
      exact ⟨q, scanFrom_eq_some_iff.mpr ⟨hleast, hpq, hq, hzero q hpq le_rfl, hstop,
        fun j hj hjq => ⟨hzero j hj hjq.le, hfirst j hj hjq⟩⟩⟩

end

section

variable {pre bytes behind : List UInt8} {len : Int}

theorem getD_between {j : Nat} (hj : pre.length ≤ j) (hlt : j < pre.length + bytes.length) :
    (pre ++ (bytes ++ behind)).getD j 0 = bytes.getD (j - pre.length) 0 := by
  simp only [List.getD_eq_getElem?_getD]
  rw [List.getElem?_append_right hj, List.getElem?_append_left (by omega)]

/-- What is read as a line is one. -/
theorem readsLine_of_nextLine {keyvalue : KeyValue} {next : Nat}
    (hlen : len = pre.length + bytes.length)
    (h : (nextLine (pre ++ (bytes ++ behind)) 0 len pre.length).2 = some (keyvalue, next)) :
    ReadsLine bytes := by
  obtain ⟨p, value, q, hcolon, hskip, hcrlf, -, -⟩ := nextLine_eq_some.mp h
  obtain ⟨-, hp, hplt, hpne, hpstop, hpgo⟩ := scanFrom_eq_some_iff.mp hcolon
  obtain ⟨-, hvalue, hvaluelt, hvaluene, hvaluestop, hvaluego⟩ := scanFrom_eq_some_iff.mp hskip
  obtain ⟨hleast, hq, hqlt, hqne, hqstop, hqgo⟩ := scanFrom_eq_some_iff.mp hcrlf
  have hget : ∀ j, pre.length ≤ j → j < pre.length + bytes.length →
      (pre ++ (bytes ++ behind)).getD j 0 = bytes.getD (j - pre.length) 0 :=
    fun j => getD_between
  have hset : ∀ j, p < j → ((pre ++ (bytes ++ behind)).set p 0).getD j 0 =
      (pre ++ (bytes ++ behind)).getD j 0 :=
    fun j hj => HTTPClient.CIMFHeader.getD_set_of_ne hj.ne'
  have hat : ∀ j, pre.length ≤ pre.length + j := fun j => Nat.le_add_right _ j
  have hsub : ∀ j, pre.length + j - pre.length = j := fun j => Nat.add_sub_cancel_left ..
  refine ⟨p - pre.length, value - pre.length, q - pre.length, by omega, by omega, by omega,
    by omega, ?_, fun j hj => ?_, ?_, fun j hj hjv => ?_, ?_, fun j hj hjq => ?_⟩
  · rw [← hget p hp (by omega)]
    simpa using hpstop
  · have hbefore := hpgo (pre.length + j) (hat j) (by omega)
    rw [hget _ (hat j) (by omega), hsub] at hbefore
    exact ⟨by simpa using hbefore.2, hbefore.1⟩
  · rwa [hset value (by omega), hget value (by omega) (by omega)] at hvaluestop
  · have hbefore := hvaluego (pre.length + j) (by omega) (by omega)
    rw [hset _ (by omega), hget _ (hat j) (by omega), hsub] at hbefore
    exact ⟨hbefore.2, hbefore.1⟩
  · rw [hset q (by omega), hset (q + 1) (by omega), hget q (by omega) (by omega)] at hqstop
    have hend := Decidable.not_and_iff_or_not.mp (of_decide_eq_false hqstop)
    simp only [ne_eq, not_not] at hend
    rcases hend with hend | hend
    · exact Or.inl hend
    · rcases Nat.lt_or_ge (q + 1) (pre.length + bytes.length) with hlt | hge
      · rw [hget (q + 1) (by omega) hlt, Nat.sub_add_comm (by omega)] at hend
        exact Or.inr (Or.inl hend)
      · exact Or.inr (Or.inr (by omega))
  · have hne : ((pre ++ (bytes ++ behind)).set p 0).getD (pre.length + j) 0 ≠ 0 := by
      rcases Nat.lt_or_eq_of_le hjq with hlt | heq
      · exact (hqgo (pre.length + j) (by omega) (by omega)).1
      · rwa [show pre.length + j = q by omega]
    rwa [hset _ (by omega), hget _ (hat j) (by omega), hsub] at hne

/-- Where no line is read, nothing but a colon is touched. -/
theorem nextLine_none_getD {memory memory' : List UInt8} {buf key j : Nat}
    (h : nextLine memory buf len key = (memory', none)) (hj : memory.getD j 0 ≠ ascii ':') :
    memory'.getD j 0 = memory.getD j 0 := by
  have hset : ∀ {p}, seekChar memory (some key) (len - (key - buf)) (ascii ':') = some p →
      (memory.set p 0).getD j 0 = memory.getD j 0 := by
    intro p hcolon
    obtain ⟨-, -, -, -, hstop, -⟩ := scanFrom_eq_some_iff.mp hcolon
    have hp : memory.getD p 0 = ascii ':' := by simpa using hstop
    exact HTTPClient.CIMFHeader.getD_set_of_ne fun heq => hj (heq ▸ hp)
  unfold nextLine at h
  simp only at h
  split at h
  · cases h
    rfl
  · next p hcolon =>
    split at h
    · cases h
      exact hset hcolon
    · split at h
      · cases h
        exact hset hcolon
      · cases h

/-- A line is read, where a line feed stands behind the bytes. -/
theorem nextLine_of_readsLine (behind : List UInt8) (hlen : len = pre.length + bytes.length)
    (h : ReadsLine bytes) :
    ∃ memory keyvalue next,
      nextLine (pre ++ (bytes ++ lf :: behind)) 0 len pre.length =
        (memory, some (keyvalue, next)) := by
  obtain ⟨p, value, q, hpv, hvq, hq, hleast, hcolon, hname, hvisible, hgap, hend, htext⟩ := h
  have hat : ∀ j, pre.length ≤ pre.length + j := fun j => Nat.le_add_right _ j
  have hget : ∀ j < bytes.length, (pre ++ (bytes ++ lf :: behind)).getD (pre.length + j) 0 =
      bytes.getD j 0 := by
    intro j hj
    rw [getD_between (hat j) (by omega), Nat.add_sub_cancel_left]
  have hset : ∀ j, p < j → j < bytes.length →
      ((pre ++ (bytes ++ lf :: behind)).set (pre.length + p) 0).getD (pre.length + j) 0 =
        bytes.getD j 0 := by
    intro j hj hjb
    rw [HTTPClient.CIMFHeader.getD_set_of_ne (by omega), hget j hjb]
  have hcolon' : seekChar (pre ++ (bytes ++ lf :: behind)) (some pre.length)
      (len - (pre.length - (0 : Nat))) (ascii ':') = some (pre.length + p) := by
    refine scanFrom_eq_some_iff.mpr ⟨by omega, hat p, by omega, ?_, ?_, fun j hj hjp => ?_⟩
    · rw [hget p (by omega), hcolon]
      decide
    · rw [hget p (by omega), hcolon]
      exact decide_eq_false fun h => h rfl
    · obtain ⟨i, rfl⟩ := Nat.exists_eq_add_of_le hj
      have hi := hname i (by omega)
      rw [hget i (by omega)]
      exact ⟨hi.2, decide_eq_true hi.1⟩
  have hskip : skipWhitespace ((pre ++ (bytes ++ lf :: behind)).set (pre.length + p) 0)
      (some (pre.length + p + 1)) (len - ((pre.length + p + 1 : Nat) - (0 : Nat))) =
        some (pre.length + value) := by
    refine scanFrom_eq_some_iff.mpr ⟨by omega, by omega, by omega, ?_, ?_, fun j hj hjv => ?_⟩
    · rw [hset value hpv (by omega)]
      exact htext value le_rfl hvq
    · rwa [hset value hpv (by omega)]
    · obtain ⟨i, rfl⟩ := Nat.exists_eq_add_of_le ((hat (p + 1)).trans hj)
      have hi := hgap i (by omega) (by omega)
      rw [hset i (by omega) (by omega)]
      exact ⟨hi.2, hi.1⟩
  obtain ⟨r, hcrlf⟩ : ∃ r, seekCrlf ((pre ++ (bytes ++ lf :: behind)).set (pre.length + p) 0)
      (some (pre.length + value)) (len - ((pre.length + value : Nat) - (0 : Nat))) = some r := by
    refine scanFrom_isSome (q := pre.length + q) (by omega) (by omega) (by omega) ?_
      fun j hj hjq => ?_
    · rw [hset q (by omega) hq]
      rcases hend with hend | hend | hend
      · exact decide_eq_false fun h => h.1 hend
      · have hlt : q + 1 < bytes.length := by
          by_contra hge
          rw [List.getD_eq_default _ _ (Nat.le_of_not_lt hge)] at hend
          exact absurd hend (by decide)
        refine decide_eq_false fun h => h.2 ?_
        rw [Nat.add_assoc, hset (q + 1) (by omega) hlt, hend]
      · refine decide_eq_false fun h => h.2 ?_
        rw [HTTPClient.CIMFHeader.getD_set_of_ne (by omega), ← List.append_assoc]
        exact getD_at (by simp only [List.length_append]; omega)
    · obtain ⟨i, rfl⟩ := Nat.exists_eq_add_of_le ((hat value).trans hj)
      rw [hset i (by omega) (by omega)]
      exact htext i (by omega) (by omega)
  obtain ⟨memory, hnext⟩ : ∃ memory, (nextLine (pre ++ (bytes ++ lf :: behind)) 0 len
    pre.length).1 = memory := ⟨_, rfl⟩
  have hread := nextLine_eq_some.mpr ⟨_, _, _, hcolon', hskip, hcrlf, rfl, rfl⟩
  exact ⟨memory, _, _, Prod.ext hnext hread⟩

end

namespace CIMFHeader

section

variable {header header' : CIMFHeader} {fresh : NewHeaders} {memory memory' pre rest : List UInt8}
  {line : Line} {lines : List Line} {buf fuel p p' nkv nkv' : Nat} {len : Int}

/-- The loop goes on behind a line. -/
theorem headerLoop_line (hline : line.Good) (hbuf : buf ≤ pre.length)
    (hlen : (pre.length : Int) + line.text.length ≤ buf + len) :
    headerLoop fresh buf len (fuel + 1) header (pre ++ (line.text ++ rest)) pre.length nkv =
      headerLoop fresh buf len fuel
        { header.getmpoHeaders fresh nkv with
          mpoHeaders := Function.update (header.getmpoHeaders fresh nkv).mpoHeaders nkv
            (line.entry (pre.length - buf)) }
        (pre ++ (line.parsed ++ rest)) (pre ++ line.parsed).length (nkv + 1) := by
  have htext := line.length_text
  have hmemory : pre ++ (line.text ++ rest) =
      pre ++ (line.name ++ ascii ':' :: (line.gap ++ (line.value ++ cr :: (lf :: rest)))) := by
    simp [Line.text]
  have hparsed : pre ++ (line.parsed ++ rest) =
      pre ++ (line.name ++ 0 :: (line.gap ++ (line.value ++ 0 :: (lf :: rest)))) := by
    simp [Line.parsed]
  rw [hmemory, headerLoop_next fresh fuel header nkv (by omega), nextLine_line hline hbuf (by omega),
    hparsed, List.length_append, line.length_parsed]

/-- All of the lines are recorded. -/
theorem headerLoop_lines (hlines : ∀ line ∈ lines, line.Good) (hbuf : buf ≤ pre.length)
    (hroom : nkv + lines.length ≤ header.miCapHeaderSize)
    (hlen : (pre.length : Int) + (lines.flatMap Line.text).length ≤ buf + len) :
    headerLoop fresh buf len (fuel + lines.length) header
        (pre ++ (lines.flatMap Line.text ++ rest)) pre.length nkv =
      headerLoop fresh buf len fuel
        { header with mpoHeaders := enter header.mpoHeaders nkv (pre.length - buf) lines }
        (pre ++ (lines.flatMap Line.parsed ++ rest))
        (pre.length + (lines.flatMap Line.text).length) (nkv + lines.length) := by
  induction lines generalizing pre header nkv with
  | nil => rfl
  | cons line lines ih =>
    simp only [List.flatMap_cons, List.length_append, List.length_cons] at hroom hlen ⊢
    have hlength : (pre ++ line.parsed).length = pre.length + line.text.length := by
      rw [List.length_append, line.length_parsed]
    have hstart : (pre ++ line.parsed).length - buf = pre.length - buf + line.text.length := by
      omega
    have hsame : header.getmpoHeaders fresh nkv = header := if_pos (by omega)
    rw [List.append_assoc, ← Nat.add_assoc,
      headerLoop_line (hlines line List.mem_cons_self) hbuf (by omega), hsame,
      ← List.append_assoc, ih (fun l hl => hlines l (List.mem_cons_of_mem line hl)) (by omega)
      (by simp only; omega) (by omega), hlength]
    simp only [← hlength, hstart, enter, List.append_assoc, Nat.add_assoc, Nat.add_comm 1]
    rw [hlength, Nat.add_assoc]

/-- The loop goes ahead, and records more and more. -/
theorem headerLoop_le
    (h : headerLoop fresh buf len fuel header memory p nkv = (header', memory', p', nkv')) :
    p ≤ p' ∧ nkv ≤ nkv' ∧ header'.mpcData = header.mpcData := by
  induction fuel generalizing header memory p nkv with
  | zero =>
    cases h
    exact ⟨le_rfl, le_rfl, rfl⟩
  | succ fuel ih =>
    rcases Int.lt_or_le (p : Int) (buf + len) with hlt | hge
    · rw [headerLoop_next fresh fuel header nkv hlt] at h
      split at h
      · cases h
        exact ⟨le_rfl, le_rfl, rfl⟩
      · next next hnext =>
        obtain ⟨hp, hnkv, hdata⟩ := ih h
        have hlt' := nextLine_lt (congrArg Prod.snd hnext)
        refine ⟨hlt'.le.trans hp, Nat.le_of_succ_le hnkv, hdata.trans ?_⟩
        unfold getmpoHeaders
        split
        · rfl
        · rfl
    · rw [headerLoop_end hge] at h
      cases h
      exact ⟨le_rfl, le_rfl, rfl⟩

/-- An entry that has been lost is not found again: no entry is copied when the table grows. -/
theorem headerLoop_lost {keyvalue : KeyValue} (hsize : header.miHeaderSize = 0)
    (hfresh : ∀ n, fresh n 0 = keyvalue) (hpos : 0 < nkv) (hlost : header.mpoHeaders 0 = keyvalue)
    (h : headerLoop fresh buf len fuel header memory p nkv = (header', memory', p', nkv')) :
    header'.mpoHeaders 0 = keyvalue := by
  induction fuel generalizing header memory p nkv with
  | zero =>
    cases h
    exact hlost
  | succ fuel ih =>
    rcases Int.lt_or_le (p : Int) (buf + len) with hlt | hge
    · rw [headerLoop_next fresh fuel header nkv hlt] at h
      split at h
      · cases h
        exact hlost
      · apply ih _ (Nat.succ_pos nkv) _ h
        · unfold getmpoHeaders
          split
          · exact hsize
          · exact hsize
        · simp only [Function.update_of_ne hpos.ne, getmpoHeaders]
          split
          · exact hlost
          · simp only [hsize, Nat.lt_irrefl, if_false, hfresh]
    · rw [headerLoop_end hge] at h
      cases h
      exact hlost

end

end CIMFHeader

namespace Request

open CIMFHeader

variable {r : Request} {moHeaderBuffer : Nat → KeyValue} {fresh : NewHeaders}
  {memory behind : List UInt8} {header : CIMFHeader} {p nkv : Nat}

theorem length_text (r : Request) : r.text.length = r.headEnd + 2 + r.body.length := by
  simp only [text, headEnd, List.length_append, List.length_cons]
  omega

theorem begun_append (r : Request) (behind : List UInt8) : r.begun ++ behind =
    r.line.parsed ++ (r.lines.flatMap Line.text ++ (cr :: lf :: r.body ++ behind)) := by
  simp [begun]

/-- The request line is recorded. -/
theorem parse_line (hr : r.Good) (behind : List UInt8) :
    RequestLine.parse (r.text ++ behind) 0 r.text.length 0 =
      ((r.line.text.length : Int), ⟨r.line.line.version, r.line.line.code, r.line.line.reason⟩,
        r.begun ++ behind) := by
  have hle : (r.line.text.length : Int) ≤ r.text.length := by
    rw [r.length_text, headEnd]
    omega
  have htext : r.text ++ behind =
      r.line.text ++ (r.lines.flatMap Line.text ++ (cr :: lf :: r.body ++ behind)) := by
    simp [text]
  rw [RequestLine.parse, htext, lineParse_status hr.line hle, begun_append]

/-- A new header on a buffer at the start of the memory. -/
def fromStart (moHeaderBuffer : Nat → KeyValue) : CIMFHeader :=
  { CIMFHeader.init moHeaderBuffer with mpcData := some 0 }

/-- `Parse` is its loop, if there are header lines. -/
theorem parse_begun (hr : r.Good) (hne : r.lines ≠ [])
    (hloop : headerLoop fresh 0 r.text.length (r.text.length + 1) (fromStart moHeaderBuffer)
      (r.begun ++ behind) r.line.text.length 0 = (header, memory, p, nkv)) :
    (CIMFHeader.init moHeaderBuffer).parse fresh (r.begun ++ behind) 0 r.text.length
      r.line.text.length = ((p : Int), { header with miHeaderSize := nkv }, memory) := by
  obtain ⟨c, tail, hfirst, hc⟩ := exists_first_lines hr.lines hne
  have hlen : (2 : Int) ≤ r.text.length - r.line.text.length := by
    rw [r.length_text, headEnd]
    omega
  have hskip : skipCrlf (r.begun ++ behind) (some (0 + r.line.text.length))
      (r.text.length - r.line.text.length) = some r.line.text.length := by
    rw [begun_append, hfirst, Nat.zero_add, List.cons_append]
    exact Response.skipCrlf_first (r := ⟨r.line, r.lines, .plain r.body⟩) hc hlen
  rw [← Int.toNat_natCast r.text.length] at hloop
  refine (parse_some hskip hloop).trans ?_
  rw [Nat.cast_zero, sub_zero]

/-- The loop at the empty line. -/
theorem headerLoop_begun (hr : r.Good) (hroom : r.lines.length ≤ keyvalBufferSize)
    (moHeaderBuffer : Nat → KeyValue) (fresh : NewHeaders) (behind : List UInt8) : ∃ fuel,
    headerLoop fresh 0 r.text.length (r.text.length + 1) (fromStart moHeaderBuffer)
        (r.begun ++ behind) r.line.text.length 0 =
      headerLoop fresh 0 r.text.length (fuel + 1)
        { fromStart moHeaderBuffer with
          mpoHeaders := enter moHeaderBuffer 0 r.line.parsed.length r.lines }
        (r.line.parsed ++ r.lines.flatMap Line.parsed ++ (cr :: lf :: r.body ++ behind)) r.headEnd
        r.lines.length := by
  have hcount := length_le_length_flatMap (f := Line.text) (by simp [Line.text]) r.lines
  have hlength := r.length_text
  have hparsed := r.line.length_parsed
  rw [headEnd] at hlength
  refine ⟨r.text.length - r.lines.length, ?_⟩
  have hfuel : r.text.length + 1 = r.text.length - r.lines.length + 1 + r.lines.length := by omega
  rw [hfuel, begun_append, ← r.line.length_parsed,
    CIMFHeader.headerLoop_lines hr.lines (Nat.zero_le _)
      (by simpa [fromStart, CIMFHeader.init] using hroom) (by omega), Nat.zero_add, Nat.sub_zero, List.append_assoc, headEnd, hparsed]
  rfl

theorem length_parsed_head (r : Request) :
    (r.line.parsed ++ r.lines.flatMap Line.parsed).length = r.headEnd := by
  rw [List.length_append, HTTPClient.length_parsed, Status.length_parsed, headEnd]

/-- A round at the empty line that reads no line ends the loop. It leaves the empty line. -/
theorem parse_stops (hr : r.Good) (hne : r.lines ≠ []) (hroom : r.lines.length ≤ keyvalBufferSize)
    (hnot : ¬ ReadsLine (cr :: lf :: r.body)) (moHeaderBuffer : Nat → KeyValue) (fresh : NewHeaders)
    (behind : List UInt8) : ∃ header rest,
      (CIMFHeader.init moHeaderBuffer).parse fresh (r.begun ++ behind) 0 r.text.length
        r.line.text.length =
          ((r.headEnd : Int), header, r.line.parsed ++ (r.lines.flatMap Line.parsed ++ rest)) ∧
      Tabled header.client r.line.parsed r.lines ∧ rest.getD 0 0 = cr ∧ rest.getD 1 0 = lf := by
  obtain ⟨fuel, hloop⟩ := headerLoop_begun hr hroom moHeaderBuffer fresh behind
  have hhead := r.length_parsed_head
  have hlength := r.length_text
  have hlen : (r.text.length : Int) = (r.line.parsed ++ r.lines.flatMap Line.parsed).length +
      (cr :: lf :: r.body).length := by
    rw [hhead, List.length_cons, List.length_cons]
    omega
  rcases hnext : nextLine (r.line.parsed ++ r.lines.flatMap Line.parsed ++
    (cr :: lf :: r.body ++ behind)) 0 r.text.length r.headEnd with ⟨memory, _ | ⟨keyvalue, next⟩⟩
  · rw [headerLoop_next fresh fuel _ _ (by omega), hnext] at hloop
    have htake := nextLine_take (r.line.parsed ++ r.lines.flatMap Line.parsed ++
      (cr :: lf :: r.body ++ behind)) 0 r.text.length r.headEnd
    rw [hnext, ← hhead, List.take_left] at htake
    have hmemory : memory = r.line.parsed ++ (r.lines.flatMap Line.parsed ++
        memory.drop r.headEnd) := by
      rw [← List.append_assoc, ← htake, hhead, List.take_append_drop]
    have hparse := parse_begun hr hne hloop
    rw [hmemory] at hparse
    have hleft : ∀ j, (cr :: lf :: r.body ++ behind).getD j 0 ≠ ascii ':' →
        (memory.drop r.headEnd).getD j 0 = (cr :: lf :: r.body ++ behind).getD j 0 := by
      intro j hj
      have hat : ∀ m : List UInt8, (m.drop r.headEnd).getD j 0 = m.getD (r.headEnd + j) 0 := by
        intro m
        simp only [List.getD_eq_getElem?_getD, List.getElem?_drop]
      have hbytes : (r.line.parsed ++ r.lines.flatMap Line.parsed ++
          (cr :: lf :: r.body ++ behind)).getD (r.headEnd + j) 0 =
            (cr :: lf :: r.body ++ behind).getD j 0 := by
        rw [← hat, ← hhead, List.drop_left]
      rw [hat, nextLine_none_getD hnext (hbytes ▸ hj), hbytes]
    exact ⟨_, _, hparse, ⟨rfl, rfl, moHeaderBuffer, rfl⟩, hleft 0 (by decide : cr ≠ ascii ':'),
      hleft 1 (by decide : lf ≠ ascii ':')⟩
  · rw [← hhead] at hnext
    exact absurd (readsLine_of_nextLine hlen (congrArg Prod.snd hnext)) hnot

/-- The client stops at the empty line. -/
theorem client_stops (hr : r.Good) (hne : r.lines ≠ []) (hroom : r.lines.length ≤ keyvalBufferSize)
    (hplain : announced r.lines = false) (moHeaderBuffer : Nat → KeyValue)
    (moChunkBuffer : Nat → Chunk) (fresh : Fresh) (behind : List UInt8) : ∃ header rest,
      (HTTPClient.CIMFHeader.init moHeaderBuffer moChunkBuffer).parse fresh (r.begun ++ behind) 0
        r.text.length r.line.text.length =
          some ((r.headEnd : Int), header,
            r.line.parsed ++ (r.lines.flatMap Line.parsed ++ rest)) ∧
      Tabled header r.line.parsed r.lines := by
  let response : Response := ⟨r.line, r.lines, .plain r.body⟩
  let raw : HttpResponse :=
    { HttpResponse.zeros with moHeader := .init moHeaderBuffer moChunkBuffer }
  have hgood : response.Good := ⟨hr.line, hr.lines, hne, fun _ _ => hplain, fun _ h => by cases h⟩
  have htable := response.tabled_recorded raw r.lines
  have hlen : (response.headEnd : Int) + 2 ≤ r.text.length := by
    rw [r.length_text, show response.headEnd = r.headEnd from rfl]
    omega
  have hlines := Response.parseLines_head hgood ⟨hroom, Nat.zero_le _⟩ raw fresh (r.body ++ behind)
    hlen
  refine ⟨response.recorded raw r.lines, cr :: lf :: (r.body ++ behind), ?_, htable⟩
  have hparse : raw.begun.parseFrom fresh (r.begun ++ behind) 0 r.text.length r.line.text.length =
      some ((r.headEnd : Int), response.recorded raw r.lines,
        r.line.parsed ++ (r.lines.flatMap Line.parsed ++ cr :: lf :: (r.body ++ behind))) := by
    have hmemory : r.begun ++ behind = response.status.parsed ++
        (response.lines.flatMap Line.text ++ cr :: lf :: (r.body ++ behind)) := begun_append ..
    rw [HTTPClient.CIMFHeader.parseFrom, hmemory]
    rw [show r.line.text.length = response.status.text.length from rfl, hlines]
    exact htable.parseBody_plain rfl hplain
  exact hparse

/-! # Where the end is missed -/

/-- Without header lines the empty line is passed over. -/
theorem parse_nil (hnil : r.lines = []) (moHeaderBuffer : Nat → KeyValue) (fresh : NewHeaders)
    (behind : List UInt8) : ((CIMFHeader.init moHeaderBuffer).parse fresh (r.begun ++ behind) 0
      r.text.length r.line.text.length).1 ≠ r.headEnd := by
  have hhead : r.headEnd = r.line.text.length := by
    rw [headEnd, hnil]
    rfl
  have hcr : (r.begun ++ behind).getD r.line.text.length 0 = cr := by
    rw [begun_append, hnil]
    exact getD_at r.line.length_parsed.symm
  cases hskip : skipCrlf (r.begun ++ behind) (some (0 + r.line.text.length))
    (r.text.length - r.line.text.length) with
  | none =>
    rw [parse_none hskip]
    simp only
    omega
  | some p =>
    obtain ⟨-, hle, -, -, hstop, -⟩ := scanFrom_eq_some_iff.mp hskip
    have hne : p ≠ r.line.text.length := by
      rintro rfl
      rw [hcr] at hstop
      exact absurd hstop (by decide)
    rcases hloop : CIMFHeader.headerLoop fresh 0 r.text.length ((r.text.length : Int).toNat + 1)
      (fromStart moHeaderBuffer) (r.begun ++ behind) p 0 with ⟨header, memory, p', nkv⟩
    have hp := (headerLoop_le hloop).1
    rw [parse_some hskip hloop]
    simp only
    omega

/-- A line that is read from the empty line on is recorded. -/
theorem parse_readsLine (hr : r.Good) (hne : r.lines ≠ []) (hroom : r.lines.length ≤ keyvalBufferSize)
    (hreads : ReadsLine (cr :: lf :: r.body)) (moHeaderBuffer : Nat → KeyValue)
    (fresh : NewHeaders) : r.lines.length <
      ((CIMFHeader.init moHeaderBuffer).parse fresh (r.begun ++ [lf]) 0 r.text.length
        r.line.text.length).2.1.miHeaderSize := by
  obtain ⟨fuel, hloop⟩ := headerLoop_begun hr hroom moHeaderBuffer fresh [lf]
  have hhead := r.length_parsed_head
  have hlength := r.length_text
  have hlen : (r.text.length : Int) = (r.line.parsed ++ r.lines.flatMap Line.parsed).length +
      (cr :: lf :: r.body).length := by
    rw [hhead, List.length_cons, List.length_cons]
    omega
  obtain ⟨memory, keyvalue, next, hnext⟩ := nextLine_of_readsLine [] hlen hreads
  rw [hhead] at hnext
  rw [headerLoop_next fresh fuel _ _ (by omega), hnext] at hloop
  simp only at hloop
  rcases hrest : CIMFHeader.headerLoop fresh 0 r.text.length (r.text.length + 1)
    (fromStart moHeaderBuffer) (r.begun ++ [lf]) r.line.text.length 0 with ⟨header, memory', p, nkv⟩
  rw [parse_begun hr hne hrest]
  rw [hrest] at hloop
  exact (headerLoop_le hloop.symm).2.1

/-- If the table grows, what has been recorded is lost. -/
theorem parse_grown (hr : r.Good) (hmany : keyvalBufferSize < r.lines.length)
    (moHeaderBuffer : Nat → KeyValue) (behind : List UInt8) : ∃ header,
      ((CIMFHeader.init moHeaderBuffer).parse Fresh.zeros.keyValues (r.begun ++ behind) 0
        r.text.length r.line.text.length).2.1 = header ∧
      0 < header.miHeaderSize ∧ header.mpoHeaders 0 = ⟨0, 0, 0, 0⟩ := by
  have hne : r.lines ≠ [] := by
    rintro hnil
    rw [hnil] at hmany
    exact absurd hmany (Nat.not_lt_zero _)
  have hlength := r.length_text
  have hparsed := r.line.length_parsed
  obtain ⟨line, after, hdrop⟩ : ∃ line after, r.lines.drop keyvalBufferSize = line :: after :=
    List.exists_cons_of_ne_nil (List.drop_eq_nil_iff.not.mpr (Nat.not_le.mpr hmany))
  have hsplit : r.lines = r.lines.take keyvalBufferSize ++ line :: after := by
    rw [← hdrop, List.take_append_drop]
  generalize hbefore : r.lines.take keyvalBufferSize = before at hsplit
  have hcount : before.length = keyvalBufferSize := by
    rw [← hbefore, List.length_take_of_le hmany.le]
  have hflat : r.lines.flatMap Line.text =
      before.flatMap Line.text ++ (line.text ++ after.flatMap Line.text) := by
    rw [hsplit, List.flatMap_append, List.flatMap_cons]
  have hcount' := length_le_length_flatMap (f := Line.text) (by simp [Line.text]) before
  rw [headEnd, hflat] at hlength
  simp only [List.length_append] at hlength
  have hfuel : r.text.length + 1 = r.text.length - before.length + 1 + before.length := by omega
  have hmemory : r.begun ++ behind = r.line.parsed ++ (before.flatMap Line.text ++ (line.text ++
      (after.flatMap Line.text ++ (cr :: lf :: r.body ++ behind)))) := by
    rw [begun_append, hflat]
    simp only [List.append_assoc]
  rcases hloop : CIMFHeader.headerLoop Fresh.zeros.keyValues 0 r.text.length (r.text.length + 1)
    (fromStart moHeaderBuffer) (r.begun ++ behind) r.line.text.length 0 with ⟨header, memory, p, nkv⟩
  refine ⟨{ header with miHeaderSize := nkv }, congrArg (fun t => t.2.1) (parse_begun hr hne hloop),
    ?_⟩
  have hgood := fun l hl => hr.lines l (hsplit ▸ List.mem_append_left _ hl)
  have hroom : 0 + before.length ≤ (fromStart moHeaderBuffer).miCapHeaderSize := by
    rw [Nat.zero_add, hcount]
    rfl
  rw [hfuel, hmemory, ← hparsed, CIMFHeader.headerLoop_lines hgood (Nat.zero_le _) hroom (by omega),
    ← List.append_assoc, ← HTTPClient.length_parsed, ← List.length_append,
    headerLoop_line (hr.lines line (hsplit ▸ List.mem_append_right _ List.mem_cons_self))
      (Nat.zero_le _) ?_] at hloop
  · obtain ⟨-, hnkv, -⟩ := headerLoop_le hloop
    have hgrown : ¬ 0 + before.length < (fromStart moHeaderBuffer).miCapHeaderSize := by
      rw [Nat.zero_add, hcount]
      exact Nat.lt_irrefl _
    have hpos : 0 < 0 + before.length + 1 := Nat.succ_pos _
    have hfresh : ∀ n, Fresh.zeros.keyValues n 0 = ⟨0, 0, 0, 0⟩ := fun _ => rfl
    refine ⟨hpos.trans_le hnkv, (?_ : header.mpoHeaders 0 = ⟨0, 0, 0, 0⟩)⟩
    refine headerLoop_lost ?_ hfresh hpos ?_ hloop
    · unfold getmpoHeaders
      split
      · rfl
      · rfl
    · have hfirst : (0 : Nat) ≠ 0 + before.length := by
        rw [hcount]
        decide
      simp only [Function.update_of_ne hfirst]
      rw [getmpoHeaders, if_neg hgrown]
      rfl
  · rw [List.length_append, HTTPClient.length_parsed]
    omega

/-- The server takes the header lines to end at the empty line, if there are some, but not too many for
the table, and the bytes from there on are not read as one more line. -/
theorem endsAtBlank_iff (hr : r.Good) : r.EndsAtBlank ↔
    r.lines ≠ [] ∧ r.lines.length ≤ keyvalBufferSize ∧ ¬ ReadsLine (cr :: lf :: r.body) := by
  constructor
  · intro h
    have hne : r.lines ≠ [] := by
      intro hnil
      obtain ⟨header, memory, hparse, -⟩ := h (fun _ => ⟨0, 0, 0, 0⟩) Fresh.zeros.keyValues []
      exact parse_nil hnil _ _ _ (congrArg Prod.fst hparse)
    have hroom : r.lines.length ≤ keyvalBufferSize := by
      by_contra hmany
      obtain ⟨header, memory, hparse, hpairs, -⟩ :=
        h (fun _ => ⟨0, 0, 0, 0⟩) Fresh.zeros.keyValues []
      obtain ⟨header', hheader, hpos, hlost⟩ :=
        parse_grown hr (Nat.lt_of_not_le hmany) (fun _ => ⟨0, 0, 0, 0⟩) []
      rw [hparse] at hheader
      obtain rfl : header = header' := hheader
      obtain ⟨line, after, hlines⟩ := List.exists_cons_of_ne_nil hne
      have hfirst := congrArg List.head? hpairs
      rw [HTTPClient.CIMFHeader.pairs, show header.client.miHeaderSize = header.miHeaderSize from rfl,
        ← Nat.succ_pred_eq_of_pos hpos, List.range_succ_eq_map, hlines] at hfirst
      simp only [List.map_cons, List.head?_cons, Option.some.injEq] at hfirst
      have hname : line.name = [] := by
        have hpair := congrArg Prod.fst hfirst
        rw [show header.client.mpoHeaders 0 = header.mpoHeaders 0 from rfl, hlost] at hpair
        exact hpair.symm.trans (by simp [KeyValue.pair])
      exact (hr.lines line (hlines ▸ List.mem_cons_self)).name_ne_nil hname
    refine ⟨hne, hroom, fun hreads => ?_⟩
    obtain ⟨header, memory, hparse, hpairs, -⟩ :=
      h (fun _ => ⟨0, 0, 0, 0⟩) Fresh.zeros.keyValues [lf]
    have hsize := parse_readsLine hr hne hroom hreads (fun _ => ⟨0, 0, 0, 0⟩)
      Fresh.zeros.keyValues
    have hcount := congrArg List.length hpairs
    rw [hparse] at hsize
    simp only [HTTPClient.CIMFHeader.pairs, List.length_map, List.length_range] at hcount
    exact absurd hcount hsize.ne'
  · rintro ⟨hne, hroom, hnot⟩ moHeaderBuffer fresh behind
    obtain ⟨header, rest, hparse, htable, -⟩ :=
      parse_stops hr hne hroom hnot moHeaderBuffer fresh behind
    refine ⟨header, _, hparse, htable.pairs rfl, fun hplain moHeaderBuffer moChunkBuffer fresh => ?_⟩
    obtain ⟨header', rest', hparse', htable'⟩ :=
      client_stops hr hne hroom hplain moHeaderBuffer moChunkBuffer fresh behind
    refine ⟨header', _, hparse', htable'.size.trans htable.size.symm, fun i hi => ?_, ?_⟩
    · exact htable.entries_eq htable' (hi.trans_eq htable.size)
    · rw [htable.pairs rfl, htable'.pairs rfl]

/-- `G / H`, with the header line `A:b` and a body that looks like one more. -/
def fieldInBody : Request where
  line := ⟨[ascii 'G'], [ascii '/'], [ascii 'H']⟩
  lines := [⟨[ascii 'A'], [], [ascii 'b']⟩]
  body := [ascii 'C', ascii ':', ascii 'd', cr, lf]

/-- The whole of it is taken for header lines, up to byte 19. -/
theorem fieldInBody_missed : ¬ fieldInBody.EndsAtBlank := by
  intro h
  obtain ⟨header, memory, hparse, -⟩ := h (fun _ => ⟨0, 0, 0, 0⟩) Fresh.zeros.keyValues []
  have hret : ((CIMFHeader.init fun _ => ⟨0, 0, 0, 0⟩).parse Fresh.zeros.keyValues
      (fieldInBody.begun ++ []) 0 fieldInBody.text.length fieldInBody.line.text.length).1 = 19 := by
    decide
  rw [hparse] at hret
  have hend : (fieldInBody.headEnd : Int) = 19 := hret
  exact absurd hend (by decide)

/-- The same request, with a body that has no colon. -/
def plainBody : Request := { fieldInBody with body := [ascii 'C', ascii 'd', cr, lf] }

theorem endsAtBlank_plainBody : plainBody.Good ∧ ¬ ReadsLine (cr :: lf :: plainBody.body) ∧
    plainBody.EndsAtBlank := by
  have hgood : plainBody.Good := by
    refine ⟨⟨List.all_iff_forall_prop.mp rfl, List.all_iff_forall_prop.mp rfl,
      List.all_iff_forall_prop.mp rfl, ⟨_, rfl, by decide⟩, ⟨_, rfl, by decide⟩,
      ⟨_, rfl, by decide⟩⟩, ?_⟩
    intro line hline
    rw [List.mem_singleton.mp hline]
    exact ⟨by decide, List.all_iff_forall_prop.mp rfl, List.all_iff_forall_prop.mp rfl,
      List.all_iff_forall_prop.mp rfl, _, rfl, by decide⟩
  have hnot : ¬ ReadsLine (cr :: lf :: plainBody.body) := by
    rintro ⟨p, value, q, hp, hvalue, hq, -, hcolon, -⟩
    have hlt : p < 6 := (hp.trans_le hvalue).trans hq
    have hnone : ∀ j < 6, (cr :: lf :: plainBody.body).getD j 0 ≠ ascii ':' := by decide
    exact hnone p hlt hcolon
  exact ⟨hgood, hnot, (endsAtBlank_iff hgood).mpr ⟨by decide, by decide, hnot⟩⟩

end Request

end HTTP
