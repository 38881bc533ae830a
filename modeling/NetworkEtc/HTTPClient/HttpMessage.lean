-- SUMMARY: HTTP messages: their header fields, and the round trip through encoder and parser.
import Mathlib.Data.List.Chain
import NetworkEtc.HTTPClient.HeaderLines
import NetworkEtc.Netfram.ByteQueue

/-!
# `CHttpMessage`

A text that `snprintf` prints is shorter than 2^31 bytes.
-/

namespace HTTPClient

open Library Library.Printf Netfram

namespace FieldList

/-- `find` -/
def find (fields : FieldList) (name : List UInt8) : Option (List UInt8) := fields.lookup name

/-- `fields[name] = value` -/
def assign (name value : List UInt8) : FieldList → FieldList
  | [] => [(name, value)]
  | (n, v) :: fields =>
    if n = name then (n, value) :: fields
    else if name < n then (name, value) :: (n, v) :: fields
    else (n, v) :: assign name value fields

/-- `erase` -/
def erase (fields : FieldList) (name : List UInt8) : FieldList := fields.filter (·.1 ≠ name)

end FieldList

/-- `HTTP_ERROROOBIG` -/
def errorOobig : Int := -90603

/-- `HTTP_CONTENT_LENGTH` -/
def contentLength : List UInt8 := "Content-Length".toList.map ascii

structure CHttpMessage where
  moFieldList : FieldList
  moEntity : List UInt8
  mbContentLengthFlag : Bool
  deriving DecidableEq

namespace CHttpMessage

def addHeader (msg : CHttpMessage) (name value : List UInt8) (sep : UInt8) : CHttpMessage :=
  if name = [] then msg
  else
    match msg.moFieldList.find name with
    | some old =>
      if value = [] then msg
      else if old ≠ [] then
        { msg with moFieldList := msg.moFieldList.assign name (old ++ sep :: value) }
      else { msg with moFieldList := msg.moFieldList.assign name value }
    | none => { msg with moFieldList := msg.moFieldList.assign name value }

def delHeader (msg : CHttpMessage) (name : List UInt8) : CHttpMessage :=
  if name = [] then msg else { msg with moFieldList := msg.moFieldList.erase name }

def getBodySize (msg : CHttpMessage) : Nat := msg.moEntity.length

/-- The start of `EncodeHeader`: "calc the content len automatically". -/
def calcContentLength (msg : CHttpMessage) : CHttpMessage :=
  if msg.mbContentLengthFlag then
    let liSize := msg.getBodySize
    let msg := msg.delHeader contentLength
    if 0 < liSize then msg.addHeader contentLength (Decimal.numeral liSize) (ascii ',') else msg
  else msg

/-- The loop of `EncodeHeader`: where it is when all lines are written, and the memory. -/
def encodeFields (lpcEnd : Nat) : FieldList → List UInt8 → Nat → Option Nat × List UInt8
  | [], memory, lpcCur => (some lpcCur, memory)
  | field :: fields, memory, lpcCur =>
    let r := snprintfLine memory lpcCur (lpcEnd - lpcCur) (fieldLine field)
    if lpcEnd - lpcCur ≤ r.2 then (none, r.1)
    else encodeFields lpcEnd fields r.1 (lpcCur + r.2)

/-- `EncodeHeader` -/
def encodeHeader (msg : CHttpMessage) (data : CMemblock) : Int × CHttpMessage × CMemblock :=
  let lpcCur := data.getWrite
  let lpcEnd := lpcCur + data.getSpace
  let msg := msg.calcContentLength
  match encodeFields lpcEnd msg.moFieldList data.mpcBase lpcCur with
  | (none, memory) => (errorOobig, msg, { data with mpcBase := memory })
  | (some lpcCur, memory) =>
    if lpcEnd - lpcCur < 3 then (errorOobig, msg, { data with mpcBase := memory })
    else
      let data := { data with mpcBase := store memory lpcCur [cr, lf, 0] }
      (0, msg, data.setWriteTo (lpcCur + 2))

end CHttpMessage

/-! # What is sent -/

namespace CHttpMessage

/-- A field that `EncodeHeader` does not replace. -/
def Keeps (msg : CHttpMessage) (field : List UInt8 × List UInt8) : Prop :=
  msg.mbContentLengthFlag = true → field.1 ≠ contentLength

instance (msg : CHttpMessage) : DecidablePred msg.Keeps :=
  fun _ => inferInstanceAs (Decidable (_ → _))

/-- How many fields are sent. -/
def numSent (msg : CHttpMessage) : Nat :=
  (msg.moFieldList.filter (msg.Keeps ·)).length +
    if msg.mbContentLengthFlag = true ∧ msg.moEntity ≠ [] then 1 else 0

/-- The text of the header. -/
def text (msg : CHttpMessage) : List UInt8 :=
  msg.calcContentLength.moFieldList.flatMap fieldLine ++ [cr, lf]

/-- The header is encoded into the block, and the parser, whatever is in its tables before, and in
the tables that it makes, records the fields of the message. -/
def RoundTrips (msg : CHttpMessage) (data : CMemblock) : Prop :=
  ∃ msg' data', msg.encodeHeader data = (0, msg', data') ∧
    ∀ (headers : Nat → KeyValue) (chunks : Nat → Chunk) (fresh : Fresh),
      ∃ ret header memory,
        (CIMFHeader.init headers chunks).parse fresh data'.mpcBase data.mpcWritePt
          (data'.mpcWritePt - data.mpcWritePt) 0 = some (ret, header, memory) ∧
        header.pairs memory = msg'.moFieldList

end CHttpMessage

/-! # The encoder -/

theorem store_append (pre tail bytes : List UInt8) :
    store (pre ++ tail) pre.length bytes = pre ++ bytes ++ tail.drop bytes.length := by
  unfold store
  rw [List.take_left, List.drop_length_add_append]

open CHttpMessage in
/-- If there is room for all lines, they are written one behind the other. -/
theorem encodeFields_eq (fields : FieldList) (lpcEnd : Nat) (pre tail : List UInt8)
    (hroom : pre.length + (fields.flatMap fieldLine).length < lpcEnd) :
    ∃ tail', encodeFields lpcEnd fields (pre ++ tail) pre.length =
      (some (pre.length + (fields.flatMap fieldLine).length),
        pre ++ fields.flatMap fieldLine ++ tail') := by
  induction fields generalizing pre tail with
  | nil => exact ⟨tail, by simp [encodeFields]⟩
  | cons f fields ih =>
    rw [List.flatMap_cons, List.length_append] at hroom ⊢
    have hsize : lpcEnd - pre.length ≠ 0 := by omega
    have htake : (fieldLine f).take (lpcEnd - pre.length - 1) = fieldLine f :=
      List.take_of_length_le (by omega)
    obtain ⟨tail', htail'⟩ := ih (pre ++ fieldLine f)
      (0 :: tail.drop ((fieldLine f).length + 1)) (by rw [List.length_append]; omega)
    rw [List.length_append] at htail'
    refine ⟨tail', ?_⟩
    simp only [encodeFields, snprintfLine, if_neg hsize, htake, store_append]
    rw [if_neg (by omega)]
    simp only [List.length_append, List.length_singleton, List.append_assoc,
      List.singleton_append] at htail' ⊢
    rw [htail']
    simp [Nat.add_assoc]

namespace CHttpMessage

section

variable {memory : List UInt8} {lpcCur lpcEnd n : Nat}

/-- The lines end where they end, or where their room does. -/
theorem length_encodeFields (fields : FieldList) (lpcEnd : Nat) (h : lpcCur < memory.length) :
    (encodeFields lpcEnd fields memory lpcCur).2.length =
      max memory.length
        (lpcCur + min ((fields.flatMap fieldLine).length + 1) (lpcEnd - lpcCur)) := by
  induction fields generalizing memory lpcCur with
  | nil =>
    rw [encodeFields, List.flatMap_nil, List.length_nil]
    simp only
    omega
  | cons field fields ih =>
    have hlength := length_snprintfLine (fieldLine field) (lpcEnd - lpcCur) h.le
    have hret : (snprintfLine memory lpcCur (lpcEnd - lpcCur) (fieldLine field)).2 =
        (fieldLine field).length := rfl
    rw [encodeFields, List.flatMap_cons, List.length_append]
    simp only [hret]
    split
    · rename_i hfull
      rw [hlength]
      omega
    · rename_i hfits
      rw [ih (by omega), hlength]
      omega

theorem take_encodeFields (fields : FieldList) (lpcEnd : Nat) (hn : n ≤ lpcCur)
    (h : lpcCur ≤ memory.length) :
    (encodeFields lpcEnd fields memory lpcCur).2.take n = memory.take n := by
  induction fields generalizing memory lpcCur with
  | nil => rfl
  | cons field fields ih =>
    have hlength := length_snprintfLine (fieldLine field) (lpcEnd - lpcCur) h
    have hret : (snprintfLine memory lpcCur (lpcEnd - lpcCur) (fieldLine field)).2 =
        (fieldLine field).length := rfl
    have hbefore := take_snprintfLine (fieldLine field) (lpcEnd - lpcCur) hn h
    rw [encodeFields]
    simp only [hret]
    split
    · exact hbefore
    · rw [ih (by omega) (by omega), hbefore]

theorem encodeFields_fst (fields : FieldList) (memory : List UInt8) (h : lpcCur < lpcEnd) :
    (encodeFields lpcEnd fields memory lpcCur).1 =
      if lpcEnd ≤ lpcCur + (fields.flatMap fieldLine).length then none
      else some (lpcCur + (fields.flatMap fieldLine).length) := by
  induction fields generalizing memory lpcCur with
  | nil =>
    rw [encodeFields, List.flatMap_nil, List.length_nil, Nat.add_zero, if_neg (by omega)]
  | cons field fields ih =>
    have hret : (snprintfLine memory lpcCur (lpcEnd - lpcCur) (fieldLine field)).2 =
        (fieldLine field).length := rfl
    rw [encodeFields, List.flatMap_cons, List.length_append]
    simp only [hret]
    split
    · rw [if_pos (by omega)]
    · rw [ih _ (by omega), Nat.add_assoc]

end

variable {msg : CHttpMessage} {data : CMemblock}

/-- The header fits in the block, from its write pointer on, and its size is an `int`. -/
structure Fits (msg : CHttpMessage) (data : CMemblock) : Prop where
  layout : data.Layout
  space : msg.text.length < data.getDirectSpace
  int : msg.text.length < 2 ^ 31

theorem length_text (msg : CHttpMessage) :
    msg.text.length = (msg.calcContentLength.moFieldList.flatMap fieldLine).length + 2 := by
  rw [CHttpMessage.text, List.length_append]
  rfl

/-- A header for which there is space is written with a zero behind it, past the end of the block if
the space is not behind the write pointer. -/
theorem encodeHeader_of_space (h : data.Layout) (hspare : data.mpcWritePt < data.mpcEnd)
    (hspace : msg.text.length < data.getSpace) :
    ∃ tail, msg.encodeHeader data = (0, msg.calcContentLength,
        ({ data with
          mpcBase := data.mpcBase.take data.mpcWritePt ++ (msg.text ++ 0 :: tail)
          } : CMemblock).setWriteTo (data.mpcWritePt + msg.text.length)) ∧
      (data.mpcBase.take data.mpcWritePt ++ (msg.text ++ 0 :: tail)).length =
        max data.mpcBase.length (data.mpcWritePt + (msg.text.length + 1)) := by
  have hmemory := h.memory
  have hend := h.end_eq
  have htext := msg.length_text
  have hwrite_lt : data.mpcWritePt < data.mpcBase.length := by omega
  have hprefix : (data.mpcBase.take data.mpcWritePt).length = data.mpcWritePt := by
    rw [List.length_take, Nat.min_eq_left hwrite_lt.le]
  have hlength := length_encodeFields msg.calcContentLength.moFieldList
    (data.mpcWritePt + data.getSpace) hwrite_lt
  obtain ⟨tail, hfields⟩ := encodeFields_eq msg.calcContentLength.moFieldList
    (data.mpcWritePt + data.getSpace) (data.mpcBase.take data.mpcWritePt)
    (data.mpcBase.drop data.mpcWritePt) (by omega)
  rw [List.take_append_drop, hprefix] at hfields
  rw [hfields] at hlength
  have hstore : store (data.mpcBase.take data.mpcWritePt ++
      msg.calcContentLength.moFieldList.flatMap fieldLine ++ tail)
        (data.mpcWritePt + (msg.calcContentLength.moFieldList.flatMap fieldLine).length)
        [cr, lf, 0] =
      data.mpcBase.take data.mpcWritePt ++ (msg.text ++ 0 :: tail.drop 3) := by
    have hpre := store_append (data.mpcBase.take data.mpcWritePt ++
      msg.calcContentLength.moFieldList.flatMap fieldLine) tail [cr, lf, 0]
    rw [List.length_append, hprefix] at hpre
    rw [hpre]
    simp [text]
  refine ⟨tail.drop 3, ?_, ?_⟩
  · unfold encodeHeader CMemblock.getWrite
    dsimp only
    rw [hfields, ← hstore]
    refine (if_neg (by omega)).trans ?_
    rw [htext]
    rfl
  · have hplace : data.mpcWritePt +
        (msg.calcContentLength.moFieldList.flatMap fieldLine).length ≤
          (data.mpcBase.take data.mpcWritePt ++
            msg.calcContentLength.moFieldList.flatMap fieldLine ++ tail).length := by
      rw [hlength]
      omega
    rw [← hstore, length_store_max _ hplace, hlength, List.length_cons, List.length_cons,
      List.length_cons, List.length_nil]
    omega

theorem encodeHeader_eq (h : msg.Fits data) :
    ∃ data' tail, msg.encodeHeader data = (0, msg.calcContentLength, data') ∧
      data'.mpcWritePt = data.mpcWritePt + msg.text.length ∧
      data'.mpcBase = data.mpcBase.take data.mpcWritePt ++ (msg.text ++ tail) := by
  obtain ⟨hlayout, hspace, -⟩ := h
  have hsize := hlayout.size_eq
  have hend := hlayout.end_eq
  have hread := hlayout.read_le
  simp only [CMemblock.getDirectSpace] at hspace
  have hfits : msg.text.length < data.getSpace := by
    unfold CMemblock.getSpace
    omega
  obtain ⟨tail, hencode, -⟩ := encodeHeader_of_space hlayout (by omega) hfits
  refine ⟨_, 0 :: tail, hencode, ?_, ?_⟩
  · unfold CMemblock.setWriteTo
    simp only
    rw [if_neg (by omega)]
  · unfold CMemblock.setWriteTo
    simp only
    rw [if_neg (by omega)]

/-! # The fields that are sent -/

theorem find_eq_none {fields : FieldList} {name : List UInt8} :
    fields.find name = none ↔ ∀ f ∈ fields, f.1 ≠ name := by
  unfold FieldList.find
  rw [List.lookup_eq_none_iff]
  constructor
  · intro h f hf heq
    exact absurd (h f hf) (by simp [heq])
  · intro h f hf
    simpa using (h f hf).symm

theorem assign_perm {fields : FieldList} {name : List UInt8} (value : List UInt8)
    (h : ∀ f ∈ fields, f.1 ≠ name) : (fields.assign name value).Perm ((name, value) :: fields) := by
  induction fields with
  | nil => exact List.Perm.refl _
  | cons f fields ih =>
    rw [FieldList.assign, if_neg (h f List.mem_cons_self)]
    split
    · exact List.Perm.refl _
    · exact ((ih fun g hg => h g (List.mem_cons_of_mem f hg)).cons f).trans (List.Perm.swap ..)

/-- The field that `EncodeHeader` adds. -/
def ownFields (msg : CHttpMessage) : FieldList :=
  if msg.mbContentLengthFlag = true ∧ msg.moEntity ≠ [] then
    [(contentLength, Decimal.numeral msg.getBodySize)]
  else []

theorem calcContentLength_perm :
    msg.calcContentLength.moFieldList.Perm
      (msg.ownFields ++ msg.moFieldList.filter (msg.Keeps ·)) := by
  obtain ⟨fields, body, flag⟩ := msg
  cases flag with
  | false => simp [calcContentLength, ownFields, Keeps]
  | true =>
    have hkeeps : fields.filter ((CHttpMessage.mk fields body true).Keeps ·) =
        fields.filter (·.1 ≠ contentLength) := by simp [Keeps]
    have hdel : (CHttpMessage.mk fields body true).delHeader contentLength =
        ⟨fields.filter (·.1 ≠ contentLength), body, true⟩ := if_neg (by decide)
    have hgone : ∀ f ∈ fields.filter (·.1 ≠ contentLength), f.1 ≠ contentLength := by
      intro f hf
      simpa using (List.mem_filter.mp hf).2
    rw [hkeeps]
    unfold calcContentLength ownFields getBodySize
    simp only [if_true, true_and, hdel]
    cases body with
    | nil => simp
    | cons c body =>
      rw [if_pos (List.length_pos_of_ne_nil (List.cons_ne_nil c body)),
        if_pos (List.cons_ne_nil c body)]
      unfold addHeader
      rw [if_neg (by decide)]
      simp only [find_eq_none.mpr hgone]
      exact assign_perm _ hgone

theorem numSent_eq : msg.numSent = msg.calcContentLength.moFieldList.length := by
  rw [calcContentLength_perm.length_eq, List.length_append, numSent, Nat.add_comm]
  unfold ownFields
  congr 1
  split
  · rfl
  · rfl

theorem mem_calcContentLength {f : List UInt8 × List UInt8} :
    f ∈ msg.calcContentLength.moFieldList ↔
      f ∈ msg.ownFields ∨ f ∈ msg.moFieldList ∧ msg.Keeps f := by
  rw [calcContentLength_perm.mem_iff, List.mem_append, List.mem_filter, decide_eq_true_eq]

theorem ownFields_spec {f : List UInt8 × List UInt8} (hf : f ∈ msg.ownFields) :
    IsField f ∧ IsVisible f.2 := by
  unfold ownFields at hf
  split at hf
  · obtain rfl := List.mem_singleton.mp hf
    obtain ⟨hne, hdigits⟩ := Decimal.numeral_isNumeral msg.getBodySize
    refine ⟨⟨List.cons_ne_nil _ _, fun c hc => ?_, fun c hc => ?_⟩, ?_⟩
    · have hname : (contentLength.all fun c =>
          c ≠ ascii ':' && c ≠ cr && c ≠ lf && c ≠ 0) = true := rfl
      simpa [and_assoc] using List.all_eq_true.mp hname c hc
    · have hdigit := hdigits c hc
      exact ⟨isDigit_ne hdigit rfl, isDigit_ne hdigit rfl, isDigit_ne hdigit rfl⟩
    · obtain ⟨c, digits, hcons⟩ := List.exists_cons_of_ne_nil hne
      have hdigit := Decimal.isDigit_iff.mp (hdigits c (hcons ▸ List.mem_cons_self))
      refine ⟨c, by rw [hcons]; rfl, ?_⟩
      simp only [isBlank, decide_eq_false_iff_not, UInt8.le_iff_toNat_le]
      change ¬ (c.toNat ≤ 32 ∨ 128 ≤ c.toNat)
      omega
  · exact absurd hf List.not_mem_nil

/-! # The round trip -/

/-- In an encoded header a line feed stands behind a carriage return only. -/
theorem guarded_text (hfields : ∀ f ∈ msg.calcContentLength.moFieldList, IsField f)
    (pre tail : List UInt8) :
    Guarded (pre ++ (msg.text ++ tail)) pre.length msg.text.length := by
  -- no byte of a line is a line feed, and the end of the line is blank
  have hline : ∀ {l rest : List UInt8}, lf ∉ l →
      rest.IsChain (fun c e => isBlank c = false → e ≠ lf) →
      (l ++ cr :: lf :: rest).IsChain (fun c e => isBlank c = false → e ≠ lf) := by
    intro l rest hl hrest
    rw [List.isChain_append_cons_cons]
    refine ⟨List.isChain_iff_getElem.mpr fun i hi hblank heq => ?_,
      fun h => absurd h (by decide), ?_⟩
    · have hmem : lf ∈ l ++ [cr] := heq ▸ List.getElem_mem hi
      rcases List.mem_append.mp hmem with hmem | hmem
      · exact hl hmem
      · exact absurd (List.mem_singleton.mp hmem) (by decide)
    · cases rest with
      | nil => exact List.IsChain.singleton lf
      | cons c rest => exact List.isChain_cons_cons.mpr ⟨fun h => absurd h (by decide), hrest⟩
  have hchain : (msg.text ++ tail.take 1).IsChain fun c e => isBlank c = false → e ≠ lf := by
    unfold text
    generalize msg.calcContentLength.moFieldList = fields at hfields
    induction fields with
    | nil =>
      apply hline List.not_mem_nil
      cases tail with
      | nil => exact List.IsChain.nil
      | cons c tail => exact List.IsChain.singleton c
    | cons f fields ih =>
      have hfield := hfields f List.mem_cons_self
      have hrest := ih fun g hg => hfields g (List.mem_cons_of_mem f hg)
      have hnot : lf ∉ f.1 ++ ascii ':' :: f.2 := by
        rw [List.mem_append, List.mem_cons, not_or, not_or]
        exact ⟨fun h => (hfield.name lf h).2.2.1 rfl, by decide,
          fun h => (hfield.value lf h).2.1 rfl⟩
      have hfirst := hline hnot hrest
      rw [List.flatMap_cons, hfield.line]
      simpa using hfirst
  intro p hbuf hlen hvisible
  obtain ⟨k, rfl⟩ := Nat.exists_eq_add_of_le hbuf
  have hget : ∀ j ≤ msg.text.length, (pre ++ (msg.text ++ tail)).getD (pre.length + j) 0 =
      (msg.text ++ tail.take 1).getD j 0 := by
    intro j hj
    simp only [List.getD_eq_getElem?_getD, List.getElem?_append_right (Nat.le_add_right ..),
      Nat.add_sub_cancel_left, List.getElem?_append, List.getElem?_take]
    split
    · rfl
    · rw [if_pos (by omega)]
  have hk : k < msg.text.length := by omega
  intro hlf
  rw [hget k hk.le] at hvisible
  rw [Nat.add_assoc, hget (k + 1) hk] at hlf
  have hnext : k + 1 < (msg.text ++ tail.take 1).length := by
    by_contra hge
    rw [List.getD_eq_getElem?_getD, List.getElem?_eq_none (Nat.not_lt.mp hge)] at hlf
    exact absurd hlf (by decide)
  have hstep := List.isChain_iff_getElem.mp hchain k hnext
  rw [List.getD_eq_getElem?_getD, List.getElem?_eq_getElem (Nat.lt_of_succ_lt hnext)] at hvisible
  rw [List.getD_eq_getElem?_getD, List.getElem?_eq_getElem hnext] at hlf
  exact hstep hvisible hlf

/-- The fields make the round trip if the table of the parser has room for them, and every value
that is not replaced begins with a byte that is no blank. -/
theorem encodeHeader_parse_iff (msg : CHttpMessage) (data : CMemblock)
    (hfields : ∀ f ∈ msg.moFieldList, IsField f) (hfits : msg.Fits data) :
    msg.RoundTrips data ↔
      msg.numSent ≤ keyvalBufferSize ∧ ∀ f ∈ msg.moFieldList, msg.Keeps f → IsVisible f.2 := by
  have hsent : ∀ f ∈ msg.calcContentLength.moFieldList, IsField f := by
    intro f hf
    rcases mem_calcContentLength.mp hf with hf | hf
    · exact (ownFields_spec hf).1
    · exact hfields f hf.1
  obtain ⟨data', tail, hencode, hwrite, hbase⟩ := encodeHeader_eq hfits
  have hpre : (data.mpcBase.take data.mpcWritePt).length = data.mpcWritePt := by
    have hlayout := hfits.layout
    have hwrite_le := hlayout.write_le
    rw [hlayout.end_eq, ← hlayout.memory] at hwrite_le
    rw [List.length_take, min_eq_left hwrite_le]
  have hlen : (data'.mpcWritePt : Int) - data.mpcWritePt = msg.text.length := by omega
  constructor
  · rintro ⟨msg', data'', hencode', hparse⟩
    rw [hencode] at hencode'
    cases hencode'
    obtain ⟨ret, header, memory, hparse, hpairs⟩ := hparse (fun _ => ⟨0, 0, 0, 0⟩)
      (fun _ => ⟨0, 0⟩) ⟨fun _ _ => ⟨0, 0, 0, 0⟩, fun _ _ => ⟨0, 0⟩⟩
    have hguarded := guarded_text hsent (data.mpcBase.take data.mpcWritePt) tail
    rw [hpre, ← hbase] at hguarded
    obtain ⟨hdata, hfew, hmany⟩ := parse_recorded (fun _ _ => rfl) hguarded (hlen ▸ hparse)
    have hlength := congrArg List.length hpairs
    rw [CIMFHeader.pairs, List.length_map, List.length_range, ← numSent_eq] at hlength
    have hpair : ∀ i < header.miHeaderSize, msg.calcContentLength.moFieldList[i]? =
        some ((header.mpoHeaders i).pair (memory.drop data.mpcWritePt)) := by
      intro i hi
      rw [← hpairs, CIMFHeader.pairs, List.getElem?_map, List.getElem?_range hi, hdata]
      rfl
    have hcount : msg.numSent ≤ keyvalBufferSize := by
      by_contra hlarge
      rw [← hlength] at hlarge
      have hfirst := hpair 0 (by omega)
      rw [hmany (Nat.lt_of_not_le hlarge)] at hfirst
      exact (hsent _ (List.mem_of_getElem? hfirst)).name_ne_nil rfl
    refine ⟨hcount, fun f hf hkeeps => ?_⟩
    obtain ⟨i, hi⟩ := List.getElem?_of_mem (mem_calcContentLength.mpr (Or.inr ⟨hf, hkeeps⟩))
    have hlt : i < header.miHeaderSize := by
      rw [hlength, numSent_eq]
      exact (List.getElem?_eq_some_iff.mp hi).1
    have heq := hpair i hlt
    rw [hi] at heq
    obtain rfl := Option.some.inj heq
    apply (hfew (hlength ▸ hcount) i hlt).isVisible
    exact fun c hc => ((hfields _ hf).value c hc).2.2
  · rintro ⟨hcount, hvisible⟩
    refine ⟨_, data', hencode, fun headers chunks fresh => ?_⟩
    rw [numSent_eq] at hcount
    have hall : ∀ f ∈ msg.calcContentLength.moFieldList, IsField f ∧ IsVisible f.2 := by
      intro f hf
      refine ⟨hsent f hf, ?_⟩
      rcases mem_calcContentLength.mp hf with hf | hf
      · exact (ownFields_spec hf).2
      · exact hvisible f hf.1 hf.2
    have hparse := parse_fields hall hcount (data.mpcBase.take data.mpcWritePt) tail headers chunks
      fresh
    rw [hpre] at hparse
    rw [hlen, hbase]
    simpa [text] using hparse

/-- `A:x` -/
def oneField : CHttpMessage := ⟨[([ascii 'A'], [ascii 'x'])], [], true⟩

/-- A block of 32 bytes. -/
def smallBlock : CMemblock := .init (List.replicate 32 0)

theorem roundTrips_oneField : oneField.RoundTrips smallBlock := by
  refine (encodeHeader_parse_iff oneField smallBlock ?_ ⟨?_, by decide, by decide⟩).mpr
    ⟨by decide, ?_⟩
  · intro f hf
    obtain rfl := List.mem_singleton.mp hf
    exact ⟨by decide, by simp [ascii, cr, lf], by simp [ascii, cr, lf]⟩
  · exact CMemblock.layout_init (by decide) (by decide)
  · intro f hf _
    obtain rfl := List.mem_singleton.mp hf
    exact ⟨ascii 'x', rfl, rfl⟩

/-- `A:` and `B:x` -/
def emptyValue : CHttpMessage :=
  ⟨[([ascii 'A'], []), ([ascii 'B'], [ascii 'x'])], [], true⟩

/-- A field without a value takes the next line for it. -/
theorem not_roundTrips_emptyValue :
    (∀ f ∈ emptyValue.moFieldList, IsField f) ∧ emptyValue.Fits smallBlock ∧
      ¬ emptyValue.RoundTrips smallBlock := by
  refine ⟨?_, ⟨CMemblock.layout_init (by decide) (by decide), by decide, by decide⟩, ?_⟩
  · intro f hf
    simp only [emptyValue, List.mem_cons, List.not_mem_nil, or_false] at hf
    rcases hf with rfl | rfl
    · exact ⟨by decide, by simp [ascii, cr, lf], by simp⟩
    · exact ⟨by decide, by simp [ascii, cr, lf], by simp [ascii, cr, lf]⟩
  · rintro ⟨msg', data', hencode, hparse⟩
    obtain ⟨ret, header, memory, hparse, hpairs⟩ := hparse (fun _ => ⟨0, 0, 0, 0⟩)
      (fun _ => ⟨0, 0⟩) ⟨fun _ _ => ⟨0, 0, 0, 0⟩, fun _ _ => ⟨0, 0⟩⟩
    have hmsg : (emptyValue.encodeHeader smallBlock).2.1 = msg' := by rw [hencode]
    have hdata : (emptyValue.encodeHeader smallBlock).2.2 = data' := by rw [hencode]
    have hrun : ((CIMFHeader.init (fun _ => ⟨0, 0, 0, 0⟩) fun _ => ⟨0, 0⟩).parse
        ⟨fun _ _ => ⟨0, 0, 0, 0⟩, fun _ _ => ⟨0, 0⟩⟩
        (emptyValue.encodeHeader smallBlock).2.2.mpcBase smallBlock.mpcWritePt
        ((emptyValue.encodeHeader smallBlock).2.2.mpcWritePt - smallBlock.mpcWritePt) 0).map
          (fun r => r.2.1.pairs r.2.2) ≠
        some (emptyValue.encodeHeader smallBlock).2.1.moFieldList := by decide +kernel
    apply hrun
    rw [hmsg, hdata, hparse, Option.map_some, hpairs]

end CHttpMessage

end HTTPClient
