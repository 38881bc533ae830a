-- SUMMARY: The text form of a PaxosLease message: writing it, reading it, and when reading gets what the text says.
import NetworkEtc.Netfram.Common
import NetworkEtc.PL.Msg

/-!
# `PLeaseMsg::Read` and `PLeaseMsg::Write`

A message is written as its type character and some of its fields, set off by
colons. The writer and the reader each have a table of formats. `carried` says
once which fields a type has; both tables are shown to be about it.
-/

namespace PL

open Library Library.Decimal Library.Printf Netfram

/-- `PLEASE_PREPARE_REQUEST` to `PLEASE_LEARN_CHOSEN` as characters. -/
def PLeaseMsgType.toChar : PLeaseMsgType → UInt8
  | .prepareRequest => ascii '1'
  | .prepareRejected => ascii '2'
  | .preparePreviouslyAccepted => ascii '3'
  | .prepareCurrentlyOpen => ascii '4'
  | .proposeRequest => ascii '5'
  | .proposeRejected => ascii '6'
  | .proposeAccepted => ascii '7'
  | .learnChosen => ascii '8'

/-- The cases of the `switch` in `Read`. -/
def PLeaseMsgType.ofChar? (c : UInt8) : Option PLeaseMsgType :=
  if c = ascii '1' then some .prepareRequest
  else if c = ascii '2' then some .prepareRejected
  else if c = ascii '3' then some .preparePreviouslyAccepted
  else if c = ascii '4' then some .prepareCurrentlyOpen
  else if c = ascii '5' then some .proposeRequest
  else if c = ascii '6' then some .proposeRejected
  else if c = ascii '7' then some .proposeAccepted
  else if c = ascii '8' then some .learnChosen
  else none

namespace PLeaseMsg

/-- A field of the record, as an argument of a format. -/
inductive Field where
  | type
  | nodeID
  | proposalID
  | acceptedProposalID
  | leaseOwner
  | duration
  | localExpireTime
  | paxosID
  deriving DecidableEq

/-- The argument a field is for `snprintf`. -/
def Field.arg (msg : PLeaseMsg) : Field → Printf.Arg
  | type => .char msg.type.toChar
  | nodeID => .unsigned msg.nodeID
  | proposalID => .unsignedLongLong msg.proposalID
  | acceptedProposalID => .unsignedLongLong msg.acceptedProposalID
  | leaseOwner => .unsigned msg.leaseOwner
  | duration => .unsigned msg.duration
  | localExpireTime => .unsignedLongLong msg.localExpireTime
  | paxosID => .unsignedLongLong msg.paxosID

/-- What `snreadf` does to the field it was given the address of. The formats below
never store a value of another type than the field's. -/
def Field.store (msg : PLeaseMsg) : Field → Value → PLeaseMsg
  | type, .char c => { msg with type := (PLeaseMsgType.ofChar? c).getD msg.type }
  | nodeID, .unsigned u => { msg with nodeID := u }
  | proposalID, .uint64 u => { msg with proposalID := u }
  | acceptedProposalID, .uint64 u => { msg with acceptedProposalID := u }
  | leaseOwner, .unsigned u => { msg with leaseOwner := u }
  | duration, .unsigned u => { msg with duration := u }
  | localExpireTime, .uint64 u => { msg with localExpireTime := u }
  | paxosID, .uint64 u => { msg with paxosID := u }
  | _, _ => msg

/-- The values go to the fields one by one, as far as there are values. -/
def storeAll (msg : PLeaseMsg) : List Field → List Value → PLeaseMsg
  | f :: fields, v :: values => storeAll (f.store msg v) fields values
  | _, _ => msg

/-- The formats of `Read` and the fields it has them fill. -/
def readFormat : PLeaseMsgType → String × List Field
  | .prepareRequest => ("%c:%u:%U:%U", [.type, .nodeID, .proposalID, .paxosID])
  | .prepareRejected => ("%c:%u:%U", [.type, .nodeID, .proposalID])
  | .preparePreviouslyAccepted =>
    ("%c:%u:%U:%U:%u:%u",
      [.type, .nodeID, .proposalID, .acceptedProposalID, .leaseOwner, .duration])
  | .prepareCurrentlyOpen => ("%c:%u:%U", [.type, .nodeID, .proposalID])
  | .proposeRequest =>
    ("%c:%u:%U:%u:%u", [.type, .nodeID, .proposalID, .leaseOwner, .duration])
  | .proposeRejected => ("%c:%u:%U", [.type, .nodeID, .proposalID])
  | .proposeAccepted => ("%c:%u:%U", [.type, .nodeID, .proposalID])
  | .learnChosen =>
    ("%c:%u:%u:%u:%U", [.type, .nodeID, .leaseOwner, .duration, .localExpireTime])

/-- The formats of `Write` and the fields it has them print. -/
def writeFormat : PLeaseMsgType → String × List Field
  | .prepareRequest => ("%c:%u:%llu:%llu", [.type, .nodeID, .proposalID, .paxosID])
  | .prepareRejected => ("%c:%u:%llu", [.type, .nodeID, .proposalID])
  | .preparePreviouslyAccepted =>
    ("%c:%u:%llu:%llu:%u:%u",
      [.type, .nodeID, .proposalID, .acceptedProposalID, .leaseOwner, .duration])
  | .prepareCurrentlyOpen => ("%c:%u:%llu", [.type, .nodeID, .proposalID])
  | .proposeRequest =>
    ("%c:%u:%llu:%u:%u", [.type, .nodeID, .proposalID, .leaseOwner, .duration])
  | .proposeRejected => ("%c:%u:%llu", [.type, .nodeID, .proposalID])
  | .proposeAccepted => ("%c:%u:%llu", [.type, .nodeID, .proposalID])
  | .learnChosen =>
    ("%c:%u:%u:%u:%llu", [.type, .nodeID, .leaseOwner, .duration, .localExpireTime])

/-- The result, and the record as the reader left it: what was read before the text
turned out wrong has been stored. -/
def read (msg : PLeaseMsg) (data : CMemblock) : Bool × PLeaseMsg :=
  if data.getSize < 1 then (false, msg)
  else
    match PLeaseMsgType.ofChar? (data.getRead.headD 0) with
    | none => (false, msg)
    | some type =>
      match snreadf data.getRead (UInt32.ofNat data.getSize) (readFormat type).1 [] with
      | none => (false, msg) -- the assertion on an unknown directive
      | some (read, values) =>
        (decide (read = (UInt32.ofNat data.getSize).toInt32.toInt),
          storeAll msg (readFormat type).2 values)

/-- The result, `false` for an empty text, and the block. -/
def write (msg : PLeaseMsg) (data : CMemblock) : Bool × CMemblock :=
  let r := snprintf data.mpcBase data.getWrite data.getDirectSpace
    (writeFormat msg.type).1.toList ((writeFormat msg.type).2.map (Field.arg msg))
  (decide (r.2 ≠ 0), { data with mpcBase := r.1 }.setWrite r.2)

-- ---------------------------------------------------------------------------
-- The layout of a message
-- ---------------------------------------------------------------------------

/-- The fields a message of a type carries after its type character. -/
def carried : PLeaseMsgType → List Field
  | .prepareRequest => [.nodeID, .proposalID, .paxosID]
  | .preparePreviouslyAccepted =>
    [.nodeID, .proposalID, .acceptedProposalID, .leaseOwner, .duration]
  | .proposeRequest => [.nodeID, .proposalID, .leaseOwner, .duration]
  | .learnChosen => [.nodeID, .leaseOwner, .duration, .localExpireTime]
  | .prepareRejected | .prepareCurrentlyOpen | .proposeRejected | .proposeAccepted =>
    [.nodeID, .proposalID]

/-- How wide a field is. The type is not a number and has no width of its own. -/
def Field.width : Field → Width
  | type | nodeID | leaseOwner | duration => .w32
  | proposalID | acceptedProposalID | localExpireTime | paxosID => .w64

/-- The number in a field. -/
def Field.number (msg : PLeaseMsg) : Field → Nat
  | type => 0
  | nodeID => msg.nodeID.toNat
  | proposalID => msg.proposalID.toNat
  | acceptedProposalID => msg.acceptedProposalID.toNat
  | leaseOwner => msg.leaseOwner.toNat
  | duration => msg.duration.toNat
  | localExpireTime => msg.localExpireTime.toNat
  | paxosID => msg.paxosID.toNat

theorem carried_nodup (type : PLeaseMsgType) : (carried type).Nodup := by
  cases type <;> decide

theorem type_not_mem_carried (type : PLeaseMsgType) : Field.type ∉ carried type := by
  cases type <;> decide

@[simp] theorem ofChar?_toChar (type : PLeaseMsgType) :
    PLeaseMsgType.ofChar? type.toChar = some type := by
  cases type <;> decide

theorem toChar_of_ofChar? {c : UInt8} {type : PLeaseMsgType}
    (h : PLeaseMsgType.ofChar? c = some type) : c = type.toChar := by
  unfold PLeaseMsgType.ofChar? at h
  repeat' split at h
  all_goals first | cases h; assumption | cases h

/-- The reader's formats are the layout. -/
theorem readFormat_eq (type : PLeaseMsgType) :
    (readFormat type).1.toList =
        '%' :: 'c' :: ((carried type).map Field.width).flatMap Width.readFormat ∧
      (readFormat type).2 = .type :: carried type := by
  cases type <;> exact ⟨by decide, rfl⟩

/-- What `snprintf` calls a number of this width, after a colon. -/
def printFormat : Width → List Char
  | .w32 => [':', '%', 'u']
  | .w64 => [':', '%', 'l', 'l', 'u']

/-- The writer's formats are the layout. -/
theorem writeFormat_eq (type : PLeaseMsgType) :
    (writeFormat type).1.toList =
        '%' :: 'c' :: ((carried type).map Field.width).flatMap printFormat ∧
      (writeFormat type).2 = .type :: carried type := by
  cases type <;> exact ⟨by decide, rfl⟩

-- ---------------------------------------------------------------------------
-- Writing
-- ---------------------------------------------------------------------------

/-- The numerals of the fields a message carries. -/
def numerals (msg : PLeaseMsg) : List (List UInt8) :=
  (carried msg.type).map fun f => numeral (f.number msg)

/-- The text of a message. -/
def toText (msg : PLeaseMsg) : List UInt8 := msg.type.toChar :: fieldsText msg.numerals

theorem numerals_isNumeral (msg : PLeaseMsg) : ∀ ds ∈ msg.numerals, IsNumeral ds := by
  intro ds hds
  obtain ⟨f, -, rfl⟩ := List.mem_map.mp hds
  exact numeral_isNumeral _

theorem length_numerals (msg : PLeaseMsg) :
    msg.numerals.length = (carried msg.type).length := List.length_map _

theorem text_field {f : Field} (hf : f ≠ .type) (msg : PLeaseMsg) (format : List Char)
    (args : List Printf.Arg) :
    text (printFormat f.width ++ format) (f.arg msg :: args) =
      ascii ':' :: numeral (f.number msg) ++ text format args := by
  cases f with
  | type => exact absurd rfl hf
  | _ => simp [printFormat, Field.width, Field.arg, Field.number, text]

theorem text_fields {fields : List Field} (hfields : Field.type ∉ fields) (msg : PLeaseMsg) :
    text ((fields.map Field.width).flatMap printFormat) (fields.map (Field.arg msg)) =
      fieldsText (fields.map fun f => numeral (f.number msg)) := by
  induction fields with
  | nil => simp [text]
  | cons f fields ih =>
    obtain ⟨hf, hfields⟩ := not_or.mp (List.mem_cons.not.mp hfields)
    rw [List.map_cons, List.flatMap_cons, List.map_cons, text_field (Ne.symm hf), ih hfields,
      List.map_cons, fieldsText_cons]

/-- The writer prints the text of the message. -/
theorem text_writeFormat (msg : PLeaseMsg) :
    text (writeFormat msg.type).1.toList ((writeFormat msg.type).2.map (Field.arg msg)) =
      msg.toText := by
  obtain ⟨hformat, hfields⟩ := writeFormat_eq msg.type
  rw [hformat, hfields, List.map_cons, Field.arg, text,
    text_fields (type_not_mem_carried msg.type), toText, numerals]

theorem number_lt (msg : PLeaseMsg) (f : Field) : f.number msg < f.width.modulus := by
  cases f <;> simp only [Field.number, Field.width, Width.modulus] <;>
    first | exact UInt32.toNat_lt _ | exact UInt64.toNat_lt _ | decide

theorem length_fieldsText_le {numerals : List (List UInt8)} {k : Nat}
    (h : ∀ ds ∈ numerals, ds.length ≤ k) :
    (fieldsText numerals).length ≤ numerals.length * (k + 1) := by
  induction numerals with
  | nil => simp
  | cons ds numerals ih =>
    have hds := h ds List.mem_cons_self
    have hrest := ih fun ds' h' => h ds' (List.mem_cons_of_mem _ h')
    simp only [fieldsText_cons, List.length_append, List.length_cons, Nat.add_mul, Nat.one_mul]
    omega

/-- No message needs more than 106 bytes. -/
theorem length_toText_le (msg : PLeaseMsg) : msg.toText.length ≤ 106 := by
  have hnumeral : ∀ ds ∈ msg.numerals, ds.length ≤ 20 := by
    intro ds hds
    obtain ⟨f, -, rfl⟩ := List.mem_map.mp hds
    have hlt : f.number msg < 10 ^ 20 := by
      have h := number_lt msg f
      cases hw : f.width <;> simp only [hw, Width.modulus] at h <;> omega
    exact length_numeral_le hlt (by decide)
  have hcount : (carried msg.type).length ≤ 5 := by cases msg.type <;> decide
  have hle := length_fieldsText_le hnumeral
  rw [length_numerals] at hle
  rw [toText, List.length_cons]
  omega

/-- Into an empty block of 1024 bytes every message is written, and nothing else. -/
theorem write_init (msg : PLeaseMsg) {memory : List UInt8} (hmemory : memory.length = 1024) :
    (msg.write (CMemblock.init memory)).1 = true ∧
    (msg.write (CMemblock.init memory)).2.getSize = msg.toText.length ∧
    (msg.write (CMemblock.init memory)).2.unread = msg.toText := by
  have hlen := msg.length_toText_le
  have hpos : msg.toText.length ≠ 0 := by simp [toText]
  have htake := take_drop_snprintf memory 0 1024 (writeFormat msg.type).1.toList
    ((writeFormat msg.type).2.map (Field.arg msg)) (by rw [text_writeFormat]; omega)
    (Nat.zero_le _)
  rw [text_writeFormat] at htake
  have hret : (snprintf memory 0 1024 (writeFormat msg.type).1.toList
      ((writeFormat msg.type).2.map (Field.arg msg))).2 = msg.toText.length := by
    rw [snprintf, text_writeFormat]
  have hroom : ¬ 1024 < msg.toText.length := by omega
  simp only [write, CMemblock.init, CMemblock.getWrite, CMemblock.getDirectSpace, hmemory,
    Nat.sub_zero, hret, CMemblock.setWrite, if_neg hroom, CMemblock.unread, CMemblock.getRead,
    CMemblock.getSize, Nat.zero_add, htake]
  simpa using hpos

-- ---------------------------------------------------------------------------
-- Reading
-- ---------------------------------------------------------------------------

/-- What the reader stores for numerals in fields of these widths. -/
def numeralValues (fields : List Field) (numerals : List (List UInt8)) : List Value :=
  List.zipWith (fun w ds => w.stored (value ds)) (fields.map Field.width) numerals

theorem number_store_self {f : Field} (hf : f ≠ .type) (msg : PLeaseMsg) (n : Nat) :
    f.number (f.store msg (f.width.stored n)) = n % f.width.modulus := by
  cases f with
  | type => exact absurd rfl hf
  | _ => simp [Field.store, Field.width, Width.stored, Field.number, Width.modulus]

theorem number_store_ne {f g : Field} (h : f ≠ g) (msg : PLeaseMsg) (v : Value) :
    g.number (f.store msg v) = g.number msg := by
  cases f <;> cases v <;> cases g <;> first | rfl | exact absurd rfl h

theorem type_store_ne {f : Field} (h : f ≠ .type) (msg : PLeaseMsg) (v : Value) :
    (f.store msg v).type = msg.type := by
  cases f <;> cases v <;> first | rfl | exact absurd rfl h

theorem number_storeAll_not_mem {fields : List Field} {g : Field} (h : g ∉ fields)
    (msg : PLeaseMsg) (values : List Value) :
    g.number (storeAll msg fields values) = g.number msg := by
  induction fields generalizing msg values with
  | nil => rfl
  | cons f fields ih =>
    cases values with
    | nil => rfl
    | cons v values =>
      obtain ⟨hf, hfields⟩ := not_or.mp (List.mem_cons.not.mp h)
      rw [storeAll, ih hfields, number_store_ne (Ne.symm hf)]

theorem type_storeAll {fields : List Field} (h : Field.type ∉ fields) (msg : PLeaseMsg)
    (values : List Value) : (storeAll msg fields values).type = msg.type := by
  induction fields generalizing msg values with
  | nil => rfl
  | cons f fields ih =>
    cases values with
    | nil => rfl
    | cons v values =>
      obtain ⟨hf, hfields⟩ := not_or.mp (List.mem_cons.not.mp h)
      rw [storeAll, ih hfields, type_store_ne (Ne.symm hf)]

/-- Each field ends up with its numeral's value, cut to its width. -/
theorem numbers_storeAll {fields : List Field} (hnodup : fields.Nodup)
    (htype : Field.type ∉ fields) {numerals : List (List UInt8)}
    (hlength : numerals.length = fields.length) (msg : PLeaseMsg) :
    fields.map (fun f => f.number (storeAll msg fields (numeralValues fields numerals))) =
      List.zipWith (fun f ds => value ds % f.width.modulus) fields numerals := by
  induction fields generalizing numerals msg with
  | nil => rfl
  | cons f fields ih =>
    cases numerals with
    | nil => simp at hlength
    | cons ds numerals =>
      obtain ⟨hf, hfields⟩ := not_or.mp (List.mem_cons.not.mp htype)
      obtain ⟨hfresh, hnodup'⟩ := List.nodup_cons.mp hnodup
      have hrest := ih hnodup' hfields (by simpa using hlength)
        (f.store msg (f.width.stored (value ds)))
      simp only [numeralValues, List.map_cons, List.zipWith_cons_cons, storeAll] at hrest ⊢
      rw [hrest, number_storeAll_not_mem hfresh, number_store_self (Ne.symm hf)]

theorem vsnreadf_char (format : List Char) (spaces : List Nat) (c : UInt8) (buffer : List UInt8)
    {length : UInt32} (hlen : ¬ length < 1) (read : Int) :
    vsnreadf ('%' :: 'c' :: format) spaces (c :: buffer) length read =
      stored (.char c) (vsnreadf format spaces buffer (length - 1) (read + 1)) := by
  rw [vsnreadf, if_neg hlen]
  rfl

/-- What the reader has stored after the type and the numerals of a text. -/
def decoded (msg : PLeaseMsg) (type : PLeaseMsgType) (numerals : List (List UInt8)) : PLeaseMsg :=
  storeAll { msg with type := type } (carried type) (numeralValues (carried type) numerals)

theorem storeAll_readFormat (msg : PLeaseMsg) (type : PLeaseMsgType)
    (numerals : List (List UInt8)) :
    storeAll msg (readFormat type).2
        (.char type.toChar :: numeralValues (carried type) numerals) =
      decoded msg type numerals := by
  rw [(readFormat_eq type).2, storeAll, Field.store, ofChar?_toChar, Option.getD_some, decoded]

theorem type_decoded (msg : PLeaseMsg) (type : PLeaseMsgType) (numerals : List (List UInt8)) :
    (decoded msg type numerals).type = type :=
  type_storeAll (type_not_mem_carried type) _ _

theorem not_lt_one_of_size {n : Nat} (hpos : ¬ n < 1) (hsmall : n < 2 ^ 31) :
    ¬ UInt32.ofNat n < 1 := by
  have h1 : (1 : UInt32).toNat = 1 := rfl
  have hn : (UInt32.ofNat n).toNat = n :=
    UInt32.toNat_ofNat_of_lt' (by simp only [UInt32.size]; omega)
  rw [UInt32.lt_iff_toNat_lt, hn, h1]
  exact hpos

/-- A block that holds the text of numerals in a type's layout is accepted. -/
theorem read_of_text (msg : PLeaseMsg) {data : CMemblock} {type : PLeaseMsgType}
    {numerals : List (List UInt8)} (hlength : numerals.length = (carried type).length)
    (hnum : ∀ ds ∈ numerals, IsNumeral ds)
    (hunread : data.unread = type.toChar :: fieldsText numerals)
    (hsize : data.getSize = (type.toChar :: fieldsText numerals).length)
    (hsmall : data.getSize < 2 ^ 31) :
    msg.read data = (true, decoded msg type numerals) := by
  obtain ⟨rest, hgetRead⟩ : ∃ rest, data.getRead = type.toChar :: fieldsText numerals ++ rest := by
    obtain ⟨rest, hrest⟩ := List.take_prefix data.muSize data.getRead
    exact ⟨rest, by rw [← hunread]; exact hrest.symm⟩
  have hcount : data.getSize = (fieldsText numerals).length + 1 := hsize
  have hpos : ¬ data.getSize < 1 := by omega
  have hn : (UInt32.ofNat data.getSize).toNat = data.getSize :=
    UInt32.toNat_ofNat_of_lt' (by simp only [UInt32.size]; omega)
  have hsub : (UInt32.ofNat data.getSize - 1).toNat = (fieldsText numerals).length := by
    rw [toNat_sub_one (by omega), hn]
    omega
  have hscan : snreadf data.getRead (UInt32.ofNat data.getSize) (readFormat type).1 [] =
      some ((0 : Int) + 1 + (fieldsText numerals).length,
        .char type.toChar :: numeralValues (carried type) numerals) := by
    rw [snreadf, (readFormat_eq type).1, hgetRead, List.cons_append,
      vsnreadf_char _ _ _ _ (not_lt_one_of_size hpos hsmall),
      vsnreadf_complete (by simpa using hlength) hnum hsub (by omega)]
    rfl
  have hread : ((0 : Int) + 1 + (fieldsText numerals).length) =
      (UInt32.ofNat data.getSize).toInt32.toInt := by
    rw [toInt32_toInt (by omega), hn]
    omega
  rw [read, if_neg hpos, hgetRead, List.cons_append, List.headD_cons, ofChar?_toChar,
    ← List.cons_append, ← hgetRead]
  dsimp only
  rw [hscan]
  dsimp only
  rw [storeAll_readFormat, decide_eq_true hread]

/-- What is accepted is the text of numerals in a type's layout, and the reader has
stored their values. -/
theorem text_of_read {msg : PLeaseMsg} {data : CMemblock} (hsmall : data.getSize < 2 ^ 31)
    (h : (msg.read data).1 = true) :
    ∃ type numerals, numerals.length = (carried type).length ∧
      (∀ ds ∈ numerals, IsNumeral ds) ∧ data.unread = type.toChar :: fieldsText numerals ∧
      (msg.read data).2 = decoded msg type numerals := by
  have hn : (UInt32.ofNat data.getSize).toNat = data.getSize :=
    UInt32.toNat_ofNat_of_lt' (by simp only [UInt32.size]; omega)
  unfold read at h ⊢
  split at h
  · cases h
  rename_i hpos
  rw [if_neg hpos]
  cases htype : PLeaseMsgType.ofChar? (data.getRead.headD 0) with
  | none => simp only [htype, Bool.false_eq_true] at h
  | some type =>
    obtain ⟨buffer, hgetRead⟩ : ∃ buffer, data.getRead = type.toChar :: buffer := by
      have hchar := toChar_of_ofChar? htype
      cases hread : data.getRead with
      | nil =>
        rw [hread, List.headD_nil] at hchar
        cases type <;> exact absurd hchar (by decide)
      | cons c buffer => exact ⟨buffer, by rw [← hchar, hread, List.headD_cons]⟩
    simp only [htype] at h ⊢
    have hscan : snreadf data.getRead (UInt32.ofNat data.getSize) (readFormat type).1 [] =
        stored (.char type.toChar) (vsnreadf (((carried type).map Field.width).flatMap
          Width.readFormat) [] buffer (UInt32.ofNat data.getSize - 1) (0 + 1)) := by
      rw [snreadf, (readFormat_eq type).1, hgetRead,
        vsnreadf_char _ _ _ _ (not_lt_one_of_size hpos hsmall)]
    rw [hscan] at h ⊢
    cases hfields : vsnreadf (((carried type).map Field.width).flatMap Width.readFormat) []
        buffer (UInt32.ofNat data.getSize - 1) (0 + 1) with
    | none => simp only [hfields, stored, Option.map_none, Bool.false_eq_true] at h
    | some r =>
      obtain ⟨r, values⟩ := r
      have hr : r = data.getSize := by
        rw [hfields] at h
        simp only [stored, Option.map_some, decide_eq_true_eq] at h
        rw [h, toInt32_toInt (by omega), hn]
      obtain ⟨numerals, hlength, hnum, hprefix, hread, rfl⟩ := vsnreadf_sound hfields (by omega)
      refine ⟨type, numerals, by simpa using hlength, hnum, ?_, ?_⟩
      · have hsize : data.muSize = (fieldsText numerals).length + 1 := by
          unfold CMemblock.getSize at hr
          omega
        rw [CMemblock.unread, hgetRead, hsize, List.take_succ_cons,
          ← List.prefix_iff_eq_take.mp hprefix]
      · exact storeAll_readFormat msg type numerals

-- ---------------------------------------------------------------------------
-- Round trip
-- ---------------------------------------------------------------------------

/-- Reading the text of a message stores the message. -/
theorem number_decoded_numerals (msg msg₀ : PLeaseMsg) {f : Field} (hf : f ∈ carried msg.type) :
    f.number (decoded msg₀ msg.type msg.numerals) = f.number msg := by
  have hnumbers := numbers_storeAll (carried_nodup msg.type) (type_not_mem_carried msg.type)
    msg.length_numerals { msg₀ with type := msg.type }
  nth_rewrite 2 [numerals] at hnumbers
  rw [List.zipWith_map_right, List.zipWith_self] at hnumbers
  have hfield := List.map_inj_left.mp hnumbers f hf
  rw [value_numeral, Nat.mod_eq_of_lt (number_lt msg f)] at hfield
  exact hfield

/-- What is written into an empty block of 1024 bytes is read back: the type and
every field the type carries, over whatever the record and the memory held. -/
theorem read_write (msg msg₀ : PLeaseMsg) (memory : {memory : List UInt8 // memory.length = 1024}) :
    (msg.write (CMemblock.init memory)).1 = true ∧
    (msg₀.read (msg.write (CMemblock.init memory)).2).1 = true ∧
    (msg₀.read (msg.write (CMemblock.init memory)).2).2.type = msg.type ∧
    ∀ f ∈ carried msg.type,
      f.number (msg₀.read (msg.write (CMemblock.init memory)).2).2 = f.number msg := by
  obtain ⟨hwrite, hsize, hunread⟩ := msg.write_init memory.property
  have hlen := msg.length_toText_le
  have hread := read_of_text msg₀ msg.length_numerals msg.numerals_isNumeral hunread hsize
    (by omega)
  rw [hread]
  exact ⟨hwrite, rfl, type_decoded _ _ _, fun f hf => number_decoded_numerals msg msg₀ hf⟩

-- ---------------------------------------------------------------------------
-- What an accepted text says
-- ---------------------------------------------------------------------------

/-- The bytes are a type character and numerals in the type's layout, and the
fields of the message are the numbers these denote. -/
def Denotes (bytes : List UInt8) (msg : PLeaseMsg) : Prop :=
  ∃ numerals, bytes = msg.type.toChar :: fieldsText numerals ∧ (∀ ds ∈ numerals, IsNumeral ds) ∧
    numerals.map value = (carried msg.type).map fun f => f.number msg

/-- The same text up to leading zeros. -/
def EqUpToZeros (bytes bytes' : List UInt8) : Prop :=
  ∃ c numerals numerals', bytes = c :: fieldsText numerals ∧ bytes' = c :: fieldsText numerals' ∧
    List.Forall₂ (fun ds ds' => ∃ k, ds = List.replicate k (ascii '0') ++ ds') numerals numerals'

/-- Every numeral of the text fits the field it is for. -/
def Fits (bytes : List UInt8) : Prop :=
  ∀ type numerals, bytes = PLeaseMsgType.toChar type :: fieldsText numerals →
    (∀ ds ∈ numerals, IsNumeral ds) →
    List.Forall₂ (fun f ds => value ds < f.width.modulus) (carried type) numerals

theorem toChar_injective {type type' : PLeaseMsgType} (h : type.toChar = type'.toChar) :
    type = type' := by
  have hof := ofChar?_toChar type
  rw [h, ofChar?_toChar] at hof
  exact (Option.some.inj hof).symm

/-- The colons tell where a numeral ends. -/
theorem fieldsText_injective {numerals numerals' : List (List UInt8)}
    (hnum : ∀ ds ∈ numerals, IsNumeral ds) (hnum' : ∀ ds ∈ numerals', IsNumeral ds)
    (h : fieldsText numerals = fieldsText numerals') : numerals = numerals' := by
  have hdigits : ∀ (ds : List UInt8) (rest : List (List UInt8)), IsNumeral ds →
      (ds ++ fieldsText rest).takeWhile isDigit = ds := by
    intro ds rest hds
    rw [List.takeWhile_append_of_pos hds.2]
    cases rest with
    | nil => simp
    | cons ds' rest =>
      have hcolon : ¬ isDigit (ascii ':') = true := by decide
      rw [fieldsText_cons, List.cons_append, List.takeWhile_cons_of_neg hcolon, List.append_nil]
  induction numerals generalizing numerals' with
  | nil =>
    cases numerals' with
    | nil => rfl
    | cons ds' numerals' => simp at h
  | cons ds numerals ih =>
    cases numerals' with
    | nil => simp at h
    | cons ds' numerals' =>
      have htail : ds ++ fieldsText numerals = ds' ++ fieldsText numerals' := by simpa using h
      have hds : ds = ds' := by
        rw [← hdigits ds numerals (hnum ds List.mem_cons_self), htail,
          hdigits ds' numerals' (hnum' ds' List.mem_cons_self)]
      subst hds
      rw [ih (fun d hd => hnum d (List.mem_cons_of_mem _ hd))
        (fun d hd => hnum' d (List.mem_cons_of_mem _ hd)) (List.append_cancel_left htail)]

theorem modulus_pos (w : Width) : 0 < w.modulus := by cases w <;> decide

/-- Cutting the values to the widths of their fields keeps them exactly if they
fit. -/
theorem map_value_eq_cut_iff {fields : List Field} {numerals : List (List UInt8)}
    (hlength : numerals.length = fields.length) :
    numerals.map value = List.zipWith (fun f ds => value ds % f.width.modulus) fields numerals ↔
      List.Forall₂ (fun f ds => value ds < f.width.modulus) fields numerals := by
  induction fields generalizing numerals with
  | nil =>
    obtain rfl : numerals = [] := List.length_eq_zero_iff.mp hlength
    simp
  | cons f fields ih =>
    cases numerals with
    | nil => simp at hlength
    | cons ds numerals =>
      have hcut : value ds = value ds % f.width.modulus ↔ value ds < f.width.modulus := by
        rw [eq_comm, Nat.mod_eq_iff_lt (modulus_pos f.width).ne']
      rw [List.map_cons, List.zipWith_cons_cons, List.cons.injEq, List.forall₂_cons, hcut,
        ih (by simpa using hlength)]

/-- The reader gets what the text says exactly if every numeral fits. -/
theorem denotes_decoded_iff (msg : PLeaseMsg) {type : PLeaseMsgType}
    {numerals : List (List UInt8)} (hlength : numerals.length = (carried type).length)
    (hnum : ∀ ds ∈ numerals, IsNumeral ds) :
    Denotes (type.toChar :: fieldsText numerals) (decoded msg type numerals) ↔
      Fits (type.toChar :: fieldsText numerals) := by
  have hnumbers := numbers_storeAll (carried_nodup type) (type_not_mem_carried type) hlength
    { msg with type := type }
  have hfits : Fits (type.toChar :: fieldsText numerals) ↔
      List.Forall₂ (fun f ds => value ds < f.width.modulus) (carried type) numerals := by
    refine ⟨fun h => h type numerals rfl hnum, fun h type' numerals' heq hnum' => ?_⟩
    obtain ⟨htype, htext⟩ := List.cons.inj heq
    obtain rfl := toChar_injective htype
    rwa [← fieldsText_injective hnum hnum' htext]
  rw [hfits, ← map_value_eq_cut_iff hlength, ← hnumbers]
  constructor
  · rintro ⟨numerals', heq, hnum', hvalues⟩
    obtain ⟨-, htext⟩ := List.cons.inj heq
    rw [← fieldsText_injective hnum hnum' htext, type_decoded] at hvalues
    exact hvalues
  · intro hvalues
    refine ⟨numerals, ?_, hnum, ?_⟩
    · rw [type_decoded]
    · rw [type_decoded]
      exact hvalues

/-- Writing what a text denotes gives the text back up to leading zeros. -/
theorem Denotes.eqUpToZeros {bytes : List UInt8} {msg : PLeaseMsg} (h : Denotes bytes msg) :
    EqUpToZeros bytes msg.toText := by
  obtain ⟨numerals, hbytes, hnum, hvalues⟩ := h
  refine ⟨msg.type.toChar, numerals, msg.numerals, hbytes, rfl, ?_⟩
  have hcanonical : msg.numerals = numerals.map fun ds => numeral (value ds) := by
    have hmap := congrArg (List.map numeral) hvalues
    rw [List.map_map, List.map_map] at hmap
    exact hmap.symm
  rw [hcanonical, List.forall₂_map_right_iff, List.forall₂_same]
  exact fun ds hds => eq_zeros_append_numeral (hnum ds hds)

/-- An accepted text is read for what it says, and writing gives it back up to
leading zeros, exactly if every numeral in it fits its field; the reader drops the
high bits of one that does not. A block of `2 ^ 31` bytes or more has no size as
an `int`. -/
theorem read_denotes_iff (msg : PLeaseMsg) (data : CMemblock) (hsmall : data.getSize < 2 ^ 31)
    (haccepted : (msg.read data).1 = true) :
    (Denotes data.unread (msg.read data).2 ∧
      ∀ memory : {memory : List UInt8 // memory.length = 1024},
        EqUpToZeros data.unread ((msg.read data).2.write (CMemblock.init memory)).2.unread) ↔
      Fits data.unread := by
  obtain ⟨type, numerals, hlength, hnum, hunread, hdecoded⟩ := text_of_read hsmall haccepted
  have hiff : Denotes data.unread (msg.read data).2 ↔ Fits data.unread := by
    rw [hunread, hdecoded]
    exact denotes_decoded_iff msg hlength hnum
  rw [← hiff]
  refine ⟨And.left, fun h => ⟨h, fun memory => ?_⟩⟩
  rw [((msg.read data).2.write_init memory.property).2.2]
  exact h.eqUpToZeros

/-- A block that holds exactly these characters. -/
def blockOf (chars : String) : CMemblock where
  mpcBase := chars.toList.map ascii
  mpcEnd := chars.length
  mpcReadPt := 0
  mpcWritePt := chars.length
  muCapacity := chars.length
  muSize := chars.length

/-- A record full of zeros. -/
def zeroed : PLeaseMsg := ⟨.prepareRequest, 0, 0, 0, 0, 0, 0, 0⟩

/-- Leading zeros are read past: the id is 5. -/
theorem read_denotes_leading_zeros :
    (zeroed.read (blockOf "2:7:005")).1 = true ∧
    (Denotes (blockOf "2:7:005").unread (zeroed.read (blockOf "2:7:005")).2 ↔
      Fits (blockOf "2:7:005").unread) ∧
    (zeroed.read (blockOf "2:7:005")).2.proposalID = 5 := by
  have haccepted : (zeroed.read (blockOf "2:7:005")).1 = true := by decide
  have hiff := read_denotes_iff zeroed (blockOf "2:7:005") (by decide) haccepted
  refine ⟨haccepted, ⟨fun h => hiff.mp ⟨h, fun memory => ?_⟩, fun h => (hiff.mpr h).1⟩, by decide⟩
  rw [((zeroed.read (blockOf "2:7:005")).2.write_init memory.property).2.2]
  exact h.eqUpToZeros

/-- A rejection from node 4294967296, a number no `unsigned` holds, is read as one
from node 0. -/
theorem read_not_denotes :
    (zeroed.read (blockOf "2:4294967296:5")).1 = true ∧
    (zeroed.read (blockOf "2:4294967296:5")).2.nodeID = 0 ∧
    ¬ Denotes (blockOf "2:4294967296:5").unread (zeroed.read (blockOf "2:4294967296:5")).2 := by
  refine ⟨by decide, by decide, ?_⟩
  rintro ⟨numerals, htext, hnum, hvalues⟩
  have htype : (zeroed.read (blockOf "2:4294967296:5")).2.type = .prepareRejected := by decide
  have hnumbers : (carried .prepareRejected).map
      (fun f => f.number (zeroed.read (blockOf "2:4294967296:5")).2) = [0, 5] := by decide
  rw [htype, hnumbers] at hvalues
  have hunread : (blockOf "2:4294967296:5").unread = PLeaseMsgType.prepareRejected.toChar ::
      fieldsText ["4294967296".toList.map ascii, "5".toList.map ascii] := by decide
  rw [hunread, htype] at htext
  have heq := fieldsText_injective (by decide) hnum (List.cons.inj htext).2
  rw [← heq] at hvalues
  exact absurd hvalues (by decide)

end PLeaseMsg

end PL
