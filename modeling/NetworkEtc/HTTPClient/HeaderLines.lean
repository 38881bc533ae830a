-- SUMMARY: What the parser records of header lines, and of anything else.
import Mathlib.Data.List.TakeWhile
import NetworkEtc.HTTPClient.Lines
import NetworkEtc.Netfram.SockAddr

/-!
# Header lines

A header is the lines of its fields and an empty line.
-/

namespace HTTPClient

open Library Library.Printf Netfram

/-- The line of a field: `"%s:%s\r\n"`. -/
def fieldLine (field : List UInt8 × List UInt8) : List UInt8 :=
  cstr field.1 ++ ascii ':' :: (cstr field.2 ++ [cr, lf])

/-- What a field may be made of. -/
structure IsField (field : List UInt8 × List UInt8) : Prop where
  name_ne_nil : field.1 ≠ []
  name : ∀ c ∈ field.1, c ≠ ascii ':' ∧ c ≠ cr ∧ c ≠ lf ∧ c ≠ 0
  value : ∀ c ∈ field.2, c ≠ cr ∧ c ≠ lf ∧ c ≠ 0

section

variable {field : List UInt8 × List UInt8} {fields : FieldList} {pre rest : List UInt8}
  {fresh : Fresh} {header : CIMFHeader} {buf nkv fuel : Nat} {len : Int}

theorem IsField.line (h : IsField field) :
    fieldLine field = field.1 ++ ascii ':' :: (field.2 ++ [cr, lf]) := by
  have hcstr : ∀ {text : List UInt8}, (∀ c ∈ text, c ≠ 0) → cstr text = text := by
    intro text htext
    unfold cstr
    apply List.takeWhile_eq_self_iff.mpr
    intro c hc
    simp [htext c hc]
  unfold fieldLine
  rw [hcstr fun c hc => (h.name c hc).2.2.2, hcstr fun c hc => (h.value c hc).2.2]

/-- The line, once it has been parsed. -/
def parsedLine (field : List UInt8 × List UInt8) : List UInt8 :=
  field.1 ++ 0 :: (field.2 ++ [0, lf])

theorem IsField.length_line (h : IsField field) :
    (parsedLine field).length = (fieldLine field).length := by
  simp [h.line, parsedLine]

/-- The entry of a line that begins at `start`. -/
def lineEntry (start : Nat) (field : List UInt8 × List UInt8) : KeyValue :=
  ⟨start, field.1.length, start + field.1.length + 1, field.2.length⟩

/-- A field is a line without blanks in front of the value. -/
def fieldOf (field : List UInt8 × List UInt8) : Line := ⟨field.1, [], field.2⟩

theorem IsField.good (h : IsField field) (hvisible : IsVisible field.2) : (fieldOf field).Good :=
  ⟨h.name_ne_nil, h.name, fun _ hc => absurd hc List.not_mem_nil, h.value, hvisible⟩

theorem pair_lineEntry (hbuf : buf ≤ pre.length) :
    (lineEntry (pre.length - buf) field).pair ((pre ++ (parsedLine field ++ rest)).drop buf) =
      field := by
  have hpair : ((fieldOf field).entry (pre.length - buf)).pair
      ((pre ++ ((fieldOf field).parsed ++ rest)).drop buf) = (fieldOf field).field :=
    pair_entry hbuf
  exact hpair

open CIMFHeader in
/-- A line is recorded, and the loop goes on behind it. -/
theorem headerLoop_line (hfield : IsField field) (hvisible : IsVisible field.2)
    (hbuf : buf ≤ pre.length) (hroom : nkv < header.miCapHeaderSize)
    (hlen : (pre.length : Int) + (fieldLine field).length ≤ buf + len) :
    headerLoop fresh buf len (fuel + 1) header (pre ++ (fieldLine field ++ rest)) pre.length nkv =
      headerLoop fresh buf len fuel
        { header with
          mpoHeaders :=
            Function.update header.mpoHeaders nkv (lineEntry (pre.length - buf) field) }
        (pre ++ parsedLine field ++ rest) (pre ++ parsedLine field).length (nkv + 1) := by
  have htext : fieldLine field = (fieldOf field).text := hfield.line
  have hmemory : pre ++ (fieldLine field ++ rest) = pre ++ (field.1 ++ ascii ':' :: ([] ++
      (field.2 ++ cr :: (lf :: rest)))) := by simp [hfield.line]
  have hparsed : pre ++ (field.1 ++ 0 :: ([] ++ (field.2 ++ 0 :: (lf :: rest)))) =
      pre ++ parsedLine field ++ rest := by simp [parsedLine]
  have hlen' : (pre.length : Int) + (fieldOf field).text.length ≤ buf + len + 1 := by
    rw [← htext]
    omega
  rw [hmemory, ← hparsed, List.length_append, hfield.length_line, htext]
  exact headerLoop_step (hfield.good hvisible) hbuf hroom hlen'

open CIMFHeader in
/-- All lines are recorded, up to the empty one. -/
theorem headerLoop_fields (fresh : Fresh) (pre : List UInt8) (header : CIMFHeader) (nkv : Nat)
    (hfields : ∀ f ∈ fields, IsField f ∧ IsVisible f.2) (hbuf : buf ≤ pre.length)
    (hroom : nkv + fields.length ≤ header.miCapHeaderSize)
    (hlen : (pre.length : Int) + (fields.flatMap fieldLine).length + 2 = buf + len)
    (hfuel : fields.length < fuel) :
    ∃ mpoHeaders,
      headerLoop fresh buf len fuel header
          (pre ++ (fields.flatMap fieldLine ++ cr :: lf :: rest)) pre.length nkv =
        ({ header with mpoHeaders }, pre ++ (fields.flatMap parsedLine ++ cr :: lf :: rest),
          pre.length + (fields.flatMap fieldLine).length, nkv + fields.length) ∧
      (∀ i < nkv, mpoHeaders i = header.mpoHeaders i) ∧
      ∀ i f, fields[i]? = some f → (mpoHeaders (nkv + i)).pair
        ((pre ++ (fields.flatMap parsedLine ++ cr :: lf :: rest)).drop buf) = f := by
  obtain ⟨fuel, rfl⟩ := Nat.exists_eq_add_one_of_ne_zero (Nat.ne_of_gt (Nat.zero_lt_of_lt hfuel))
  induction fields generalizing pre header nkv fuel with
  | nil =>
    refine ⟨header.mpoHeaders, ?_, fun _ _ => rfl, by simp⟩
    simp only [List.flatMap_nil, List.length_nil] at hlen
    have hcr : (pre ++ (cr :: lf :: rest)).getD pre.length 0 = cr := by
      simp [List.getD_eq_getElem?_getD]
    have hlf : (pre ++ (cr :: lf :: rest)).getD (pre.length + 1) 0 = lf := by
      simp [List.getD_eq_getElem?_getD]
    rw [List.flatMap_nil, List.nil_append, headerLoop]
    simp only
    rw [if_neg (by omega), if_pos ⟨hcr, hlf⟩]
    rfl
  | cons f fields ih =>
    obtain ⟨hfield, hvisible⟩ := hfields f List.mem_cons_self
    simp only [List.flatMap_cons, List.length_append, List.length_cons, List.append_assoc] at *
    obtain ⟨fuel, rfl⟩ := Nat.exists_eq_add_one_of_ne_zero (Nat.ne_of_gt (Nat.zero_lt_of_lt
      (Nat.lt_of_succ_lt_succ hfuel)))
    rw [headerLoop_line hfield hvisible hbuf (by omega) (by omega)]
    have hlength := hfield.length_line
    obtain ⟨mpoHeaders, hloop, hbefore, hpairs⟩ := ih (pre ++ parsedLine f)
      { header with
        mpoHeaders := Function.update header.mpoHeaders nkv (lineEntry (pre.length - buf) f) }
      (nkv + 1) (fun g hg => hfields g (List.mem_cons_of_mem f hg))
      (by rw [List.length_append]; omega) (by simp only; omega)
      (by rw [List.length_append]; omega) fuel (by omega)
    simp only at hbefore
    refine ⟨mpoHeaders, ?_, ?_, ?_⟩
    · rw [hloop, List.length_append, hlength]
      simp [Nat.add_assoc, Nat.add_comm 1]
    · intro i hi
      rw [hbefore i (by omega), Function.update_of_ne hi.ne]
    · intro i g hg
      cases i with
      | zero =>
        cases hg
        rw [Nat.add_zero, hbefore nkv (Nat.lt_succ_self nkv), Function.update_self]
        exact pair_lineEntry hbuf
      | succ i =>
        have hpair := hpairs i g hg
        rw [List.append_assoc] at hpair
        rw [← hpair]
        congr 2
        omega

/-- There is nothing behind the empty line. -/
theorem skipCrlf_end {memory : List UInt8} (hmemory : memory = pre ++ cr :: lf :: rest) {p : Nat}
    (hp : p = pre.length) : skipCrlf memory (some p) 2 = none := by
  subst hmemory hp
  cases hskip : skipCrlf (pre ++ cr :: lf :: rest) (some pre.length) 2 with
  | none => rfl
  | some q =>
    obtain ⟨-, hle, hlt, -, hstop, -⟩ := scanFrom_eq_some_iff.mp hskip
    obtain rfl | rfl : q = pre.length ∨ q = pre.length + 1 := by omega
    · exact absurd hstop (by simp [List.getD_eq_getElem?_getD])
    · exact absurd hstop (by simp [List.getD_eq_getElem?_getD])

/-- At the empty line there are no chunks. -/
theorem parseBody_end (fresh : Fresh) (header : CIMFHeader) {memory : List UInt8}
    (hmemory : memory = pre ++ cr :: lf :: rest) {p : Nat} (hp : p = pre.length) (hbuf : buf ≤ p)
    (hlen : (p : Int) + 2 = buf + len) (offs : Nat) :
    ∃ ret header', header.parseBody fresh memory buf len offs p = some (ret, header', memory) ∧
      header'.pairs memory = header.pairs memory := by
  have hp' : buf + (p - buf) = p := Nat.add_sub_of_le hbuf
  have hsize : len - ((p : Int) - buf) = 2 := by omega
  unfold CIMFHeader.parseBody
  split
  · exact ⟨_, header, rfl, rfl⟩
  · split
    · simp only [CIMFHeader.parseChunked, hp', CIMFHeader.chunkLoop, hsize,
        skipCrlf_end hmemory hp, Option.bind_eq_bind, Option.bind_some]
      split
      · exact ⟨_, _, rfl, rfl⟩
      · exact ⟨_, _, rfl, rfl⟩
    · exact ⟨_, header, rfl, rfl⟩

theorem length_parsedLines (h : ∀ f ∈ fields, IsField f) :
    (fields.flatMap parsedLine).length = (fields.flatMap fieldLine).length := by
  rw [List.length_flatMap, List.length_flatMap]
  congr 1
  exact List.map_congr_left fun f hf => (h f hf).length_line

/-- The parser records the lines if they fit in its buffer. -/
theorem parseFrom_fields {memory : List UInt8}
    (hmemory : memory = pre ++ (fields.flatMap fieldLine ++ cr :: lf :: rest))
    (hlen : len = (fields.flatMap fieldLine).length + 2)
    (hfields : ∀ f ∈ fields, IsField f ∧ IsVisible f.2)
    (hcount : fields.length ≤ header.miCapHeaderSize) (hsize : header.miHeaderSize = 0)
    (hstate : header.meChunkFinished = .header) (hdata : header.mpcData = some pre.length) :
    ∃ ret header' memory', header.parseFrom fresh memory pre.length len 0 =
      some (ret, header', memory') ∧ header'.pairs memory' = fields := by
  unfold CIMFHeader.parseFrom
  cases hfirst : fields with
  | nil =>
    rw [hfirst, List.flatMap_nil, List.nil_append] at hmemory
    have hlen' : len - (0 : Nat) = 2 := by simp [hlen, hfirst]
    rw [CIMFHeader.parseLines_none hstate (hlen' ▸ skipCrlf_end hmemory rfl)]
    exact ⟨-1, header, memory, rfl, by simp [CIMFHeader.pairs, hsize]⟩
  | cons f fields' =>
    have hskip : skipCrlf memory (some (pre.length + 0)) (len - (0 : Nat)) = some pre.length := by
      have hfield := (hfields f (hfirst ▸ List.mem_cons_self)).1
      obtain ⟨c, name, hname⟩ := List.exists_cons_of_ne_nil hfield.name_ne_nil
      obtain ⟨-, hcr, hlf, hzero⟩ := hfield.name c (hname ▸ List.mem_cons_self)
      apply scanFrom_append (a := []) (c := c) (b := (fieldLine f).tail ++
        (fields'.flatMap fieldLine ++ cr :: lf :: rest))
      · rw [hmemory, Nat.add_zero, List.drop_left, hfirst, List.flatMap_cons, hfield.line, hname]
        simp
      · simp
      · exact hzero
      · simp [hcr, hlf]
      · omega
      · simp only [List.length_nil]
        omega
    have hend : (pre.length : Int) + (fields.flatMap fieldLine).length + 2 = pre.length + len := by
      omega
    have hfuel : fields.length < len.toNat + 1 := by
      have hlines := length_le_length_flatMap (f := fieldLine) (by simp [fieldLine]) fields
      omega
    obtain ⟨mpoHeaders, hloop, -, hpairs⟩ := headerLoop_fields fresh pre header 0 hfields
      le_rfl (by omega) hend hfuel
    have hlength : (pre ++ fields.flatMap parsedLine).length =
        pre.length + (fields.flatMap fieldLine).length := by
      rw [List.length_append, length_parsedLines fun f hf => (hfields f hf).1]
    rw [← hmemory, ← hsize] at hloop
    rw [CIMFHeader.parseLines_some hstate hskip hloop, ← hfirst]
    have hend' : ((pre.length + (fields.flatMap fieldLine).length : Nat) : Int) + 2 =
        pre.length + len := by omega
    obtain ⟨ret, header', hbody, hsame⟩ := parseBody_end fresh
      { header with mpoHeaders, miHeaderSize := header.miHeaderSize + fields.length }
      (List.append_assoc pre _ _).symm hlength.symm (Nat.le_add_right ..) hend' 0
    refine ⟨ret, header', _, hbody, hsame.trans ?_⟩
    unfold CIMFHeader.pairs
    simp only [hsize, hdata, Option.getD_some, Nat.zero_add] at hpairs ⊢
    apply List.ext_getElem?
    intro i
    rw [List.getElem?_map]
    cases hi : fields[i]? with
    | none =>
      rw [List.getElem?_eq_none (by simpa using hi)]
      rfl
    | some f =>
      have hlt := (List.getElem?_eq_some_iff.mp hi).1
      rw [List.getElem?_range hlt, Option.map_some, hpairs i f hi]

/-- The parser records the lines if they fit in its buffer. -/
theorem parse_fields (hfields : ∀ f ∈ fields, IsField f ∧ IsVisible f.2)
    (hcount : fields.length ≤ keyvalBufferSize) (pre rest : List UInt8)
    (headers : Nat → KeyValue) (chunks : Nat → Chunk) (fresh : Fresh) :
    ∃ ret header memory,
      (CIMFHeader.init headers chunks).parse fresh
          (pre ++ (fields.flatMap fieldLine ++ cr :: lf :: rest)) pre.length
          ((fields.flatMap fieldLine).length + 2) 0 = some (ret, header, memory) ∧
        header.pairs memory = fields :=
  parseFrom_fields rfl rfl hfields hcount rfl rfl rfl

end

/-! # What is recorded

Whatever it reads, the parser records no value that begins with a blank, and there is nothing
left of the first header once the table has been made larger.
-/

/-- A byte that is no blank has no line feed behind it. -/
def Guarded (memory : List UInt8) (buf : Nat) (len : Int) : Prop :=
  ∀ p, buf ≤ p → (p : Int) < buf + len → isBlank (memory.getD p 0) = false →
    memory.getD (p + 1) 0 ≠ lf

/-- The value of the entry begins with a byte that is no blank, if it has not become a zero. -/
def HoldsVisible (memory : List UInt8) (buf : Nat) (keyval : KeyValue) : Prop :=
  1 ≤ keyval.valueLength ∧ buf + keyval.valueStart < memory.length ∧
    (memory.getD (buf + keyval.valueStart) 0 = 0 ∨
      isBlank (memory.getD (buf + keyval.valueStart) 0) = false)

/-- What the header table is after `nkv` headers, if new tables are full of zeros. -/
structure Recorded (header : CIMFHeader) (memory : List UInt8) (buf nkv : Nat) : Prop where
  size : header.miHeaderSize = 0
  cap : nkv ≤ keyvalBufferSize → header.miCapHeaderSize = keyvalBufferSize
  few : nkv ≤ keyvalBufferSize → ∀ i < nkv, HoldsVisible memory buf (header.mpoHeaders i)
  many : keyvalBufferSize < nkv → header.mpoHeaders 0 = ⟨0, 0, 0, 0⟩

section

variable {memory memory' : List UInt8} {buf nkv nkv' fuel p p' : Nat} {len : Int} {fresh : Fresh}
  {header header' : CIMFHeader} {keyval : KeyValue}

theorem Guarded.zeroed (h : Guarded memory buf len) (hzeroed : Zeroed memory memory') :
    Guarded memory' buf len := by
  intro p hbuf hlen hvisible hlf
  have hbyte := (hzeroed.2 p).resolve_right fun hzero => by
    rw [hzero] at hvisible
    exact absurd hvisible (by decide)
  have hnext := (hzeroed.2 (p + 1)).resolve_right fun hzero => by
    rw [hzero] at hlf
    exact absurd hlf (by decide)
  rw [hbyte] at hvisible
  rw [hnext] at hlf
  exact h p hbuf hlen hvisible hlf

theorem HoldsVisible.zeroed (h : HoldsVisible memory buf keyval)
    (hzeroed : Zeroed memory memory') : HoldsVisible memory' buf keyval := by
  refine ⟨h.1, hzeroed.1 ▸ h.2.1, ?_⟩
  rcases hzeroed.2 (buf + keyval.valueStart) with heq | hzero
  · rw [heq]
    exact h.2.2
  · exact Or.inl hzero

theorem Recorded.zeroed (h : Recorded header memory buf nkv) (hzeroed : Zeroed memory memory') :
    Recorded header memory' buf nkv :=
  ⟨h.size, h.cap, fun hle i hi => (h.few hle i hi).zeroed hzeroed, h.many⟩

/-- One more entry. -/
theorem Recorded.record (hfresh : ∀ n i, fresh.keyValues n i = ⟨0, 0, 0, 0⟩)
    (h : Recorded header memory buf nkv) (hkeyval : HoldsVisible memory buf keyval) :
    Recorded
      { header.getHeaders fresh nkv with
        mpoHeaders := Function.update (header.getHeaders fresh nkv).mpoHeaders nkv keyval }
      memory buf (nkv + 1) := by
  rcases Nat.lt_or_ge nkv keyvalBufferSize with hlt | hge
  · have hcap := h.cap hlt.le
    have hkeep : header.getHeaders fresh nkv = header := if_pos (hcap ▸ hlt)
    rw [hkeep]
    refine ⟨h.size, fun _ => hcap, fun hle i hi => ?_, fun hmany => absurd hmany (by omega)⟩
    simp only
    rcases Nat.lt_succ_iff_lt_or_eq.mp hi with hi | rfl
    · rw [Function.update_of_ne hi.ne]
      exact h.few hlt.le i hi
    · rw [Function.update_self]
      exact hkeyval
  · have hzero : (header.getHeaders fresh nkv).mpoHeaders 0 = ⟨0, 0, 0, 0⟩ := by
      unfold CIMFHeader.getHeaders
      split
      · next hroom =>
        -- the table has been made larger before
        apply h.many
        by_contra hle
        rw [h.cap (Nat.not_lt.mp hle)] at hroom
        exact absurd hroom (Nat.not_lt.mpr hge)
      · simp [h.size, hfresh]
    have hsize : (header.getHeaders fresh nkv).miHeaderSize = 0 := by
      unfold CIMFHeader.getHeaders
      split
      · exact h.size
      · exact h.size
    refine ⟨hsize, fun hle => absurd hle (by omega), fun hle => absurd hle (by omega), fun _ => ?_⟩
    have hne : 0 ≠ nkv := fun heq => absurd hge (by rw [← heq]; decide)
    simp only [Function.update_of_ne hne, hzero]

/-- What is between the end of the blanks and the end of the line. -/
theorem holdsVisible_of_scan {q value r : Nat} {size size' : Int}
    (hguarded : Guarded memory buf len) (hbuf : buf ≤ value) (hlen : (value : Int) < buf + len)
    (hskip : skipWhitespace memory (some q) size = some value)
    (hcrlf : seekCrlf memory (some value) size' = some r) :
    HoldsVisible memory buf ⟨p - buf, p' - p, value - buf, r - value⟩ := by
  obtain ⟨-, -, -, hne, hvisible, -⟩ := scanFrom_eq_some_iff.mp hskip
  obtain ⟨-, hle, -, -, hstop, -⟩ := scanFrom_eq_some_iff.mp hcrlf
  have hpos : value ≠ r := by
    rintro rfl
    have hcr : memory.getD value 0 ≠ cr := by
      intro heq
      rw [heq] at hvisible
      exact absurd hvisible (by decide)
    exact absurd ⟨hcr, hguarded value hbuf hlen hvisible⟩ (of_decide_eq_false hstop)
  have hvalue : buf + (value - buf) = value := Nat.add_sub_of_le hbuf
  unfold HoldsVisible
  simp only [hvalue]
  refine ⟨by omega, ?_, Or.inr hvisible⟩
  by_contra hge
  rw [List.getD_eq_getElem?_getD, List.getElem?_eq_none (Nat.not_lt.mp hge)] at hne
  exact hne rfl

open CIMFHeader in
theorem headerLoop_recorded (hfresh : ∀ n i, fresh.keyValues n i = ⟨0, 0, 0, 0⟩)
    (hguarded : Guarded memory buf len) (hbuf : buf ≤ p) (h : Recorded header memory buf nkv)
    (hloop : headerLoop fresh buf len fuel header memory p nkv = (header', memory', p', nkv')) :
    Recorded header' memory' buf nkv' ∧ header'.mpcData = header.mpcData ∧
      Zeroed memory memory' := by
  induction fuel generalizing header memory p nkv with
  | zero =>
    cases hloop
    exact ⟨h, rfl, Zeroed.refl _⟩
  | succ fuel ih =>
    rw [headerLoop] at hloop
    simp only at hloop
    split at hloop
    · cases hloop
      exact ⟨h, rfl, Zeroed.refl _⟩
    · split at hloop
      · cases hloop
        exact ⟨h, rfl, Zeroed.refl _⟩
      · split at hloop
        · cases hloop
          exact ⟨h, rfl, Zeroed.refl _⟩
        · next q hcolon =>
          have hzeroed := Zeroed.set memory q
          split at hloop
          · cases hloop
            exact ⟨h.zeroed hzeroed, rfl, hzeroed⟩
          · next value hskip =>
            split at hloop
            · cases hloop
              exact ⟨h.zeroed hzeroed, rfl, hzeroed⟩
            · next r hcrlf =>
              obtain ⟨-, hpq, -, -, -, -⟩ := scanFrom_eq_some_iff.mp hcolon
              obtain ⟨-, hqv, hlen, -, -, -⟩ := scanFrom_eq_some_iff.mp hskip
              obtain ⟨-, hvr, -, -, -, -⟩ := scanFrom_eq_some_iff.mp hcrlf
              have hguarded' := hguarded.zeroed hzeroed
              have hkeyval : HoldsVisible (memory.set q 0) buf
                  ⟨p - buf, q - p, value - buf, r - value⟩ :=
                holdsVisible_of_scan hguarded' (by omega) (by omega) hskip hcrlf
              have hzeroed' := Zeroed.set (memory.set q 0) r
              obtain ⟨hrecorded, hdata, hrest⟩ := ih (hguarded'.zeroed hzeroed') (by omega)
                (((h.zeroed hzeroed).record hfresh hkeyval).zeroed hzeroed') hloop
              refine ⟨hrecorded, hdata.trans ?_, (hzeroed.trans hzeroed').trans hrest⟩
              simp only [getHeaders]
              split
              · rfl
              · rfl

/-- The value in the table begins with a byte that is no blank, unless there are zeros in it. -/
theorem HoldsVisible.isVisible (h : HoldsVisible memory buf keyval)
    (hzero : ∀ c ∈ (keyval.pair (memory.drop buf)).2, c ≠ 0) :
    IsVisible (keyval.pair (memory.drop buf)).2 := by
  obtain ⟨hlength, hlt, hbyte⟩ := h
  obtain ⟨n, hn⟩ := Nat.exists_eq_add_one_of_ne_zero (Nat.ne_of_gt hlength)
  have hvalue : (keyval.pair (memory.drop buf)).2 = memory[buf + keyval.valueStart] ::
      (memory.drop (buf + keyval.valueStart + 1)).take n := by
    simp only [KeyValue.pair, List.drop_drop]
    rw [hn, List.drop_eq_getElem_cons hlt, List.take_succ_cons]
  rw [List.getD_eq_getElem?_getD, List.getElem?_eq_getElem hlt, Option.getD_some] at hbyte
  rw [hvalue] at hzero ⊢
  exact ⟨_, rfl, hbyte.resolve_left (hzero _ List.mem_cons_self)⟩

/-- What the parser records in a table of its own. -/
theorem parse_recorded {chunks : Nat → Chunk} {ret : Int}
    (hfresh : ∀ n i, fresh.keyValues n i = ⟨0, 0, 0, 0⟩) (hguarded : Guarded memory buf len)
    (hparse : (CIMFHeader.init (fun _ => ⟨0, 0, 0, 0⟩) chunks).parse fresh memory buf len 0 =
      some (ret, header, memory')) :
    header.mpcData = some buf ∧
      (header.miHeaderSize ≤ keyvalBufferSize →
        ∀ i < header.miHeaderSize, HoldsVisible memory' buf (header.mpoHeaders i)) ∧
      (keyvalBufferSize < header.miHeaderSize → header.mpoHeaders 0 = ⟨0, 0, 0, 0⟩) := by
  unfold CIMFHeader.parse at hparse
  simp only [CIMFHeader.init] at hparse
  unfold CIMFHeader.parseFrom at hparse
  split at hparse
  · cases hparse
    exact ⟨rfl, fun _ i hi => absurd hi (Nat.not_lt_zero i), fun h => absurd h (Nat.not_lt_zero _)⟩
  · next header₁ memory₁ p hlines =>
    rw [CIMFHeader.parseLines, if_pos rfl] at hlines
    obtain ⟨start, hskip, hlines⟩ := Option.map_eq_some_iff.mp hlines
    generalize hloop : CIMFHeader.headerLoop fresh buf len _ _ memory start _ = r at hlines
    obtain ⟨header₂, memory₂, q, nkv⟩ := r
    cases hlines
    have hstart : buf ≤ start := (scanFrom_eq_some_iff.mp hskip).2.1
    obtain ⟨hrecorded, hdata, -⟩ := headerLoop_recorded hfresh hguarded hstart
      ⟨rfl, fun _ => rfl, fun _ i hi => absurd hi (Nat.not_lt_zero i),
        fun h => absurd h (Nat.not_lt_zero _)⟩ hloop
    obtain ⟨⟨hsize, hheaders, hdata'⟩, hzeroed⟩ := CIMFHeader.parseBody_same hparse
    rw [hsize, hheaders, hdata']
    exact ⟨hdata, fun hle i hi => (hrecorded.few hle i hi).zeroed hzeroed, hrecorded.many⟩

end

end HTTPClient
