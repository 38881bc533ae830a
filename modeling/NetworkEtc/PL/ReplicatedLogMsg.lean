-- SUMMARY: The text form of a replicated log message, which its value never gets into.
import NetworkEtc.Netfram.Common
import NetworkEtc.Netfram.ByteQueue

/-!
# `ReplicatedLogMsg`

A message is written as three numbers and the length of the value, each with a colon
behind it, and then the value. The reader gets every such text right; the writer writes
only those with an empty value.
-/

namespace PL

open Library Library.Decimal Library.Printf Netfram

structure ReplicatedLogMsg where
  nodeID : UInt32
  restartCounter : UInt64
  leaseEpoch : UInt64
  value : CMemblock
  deriving DecidableEq

/-- `CMemblock()` -/
def emptyBlock : CMemblock := ⟨[], 0, 0, 0, 0, 0⟩

/-- `Init(liSize, buffer, buffer, liSize)`: the block is put on bytes that are there already.
A size of 0 is refused, and the block stays what it was. -/
def initOn (block : CMemblock) (bytes : List UInt8) : CMemblock :=
  if bytes.length = 0 then block
  else
    { mpcBase := bytes
      mpcEnd := bytes.length
      mpcReadPt := 0
      mpcWritePt := bytes.length
      muCapacity := bytes.length
      muSize := bytes.length }

/-- `n` bytes from a place in the memory of a block; what lies behind the memory is read as
zero. -/
def bytesFrom (memory : List UInt8) (place n : Nat) : List UInt8 := (memory.drop place).takeD n 0

namespace ReplicatedLogMsg

/-- A message that was not initialised: its numbers are whatever they are. -/
def fresh (nodeID : UInt32) (restartCounter leaseEpoch : UInt64) : ReplicatedLogMsg :=
  { nodeID, restartCounter, leaseEpoch, value := emptyBlock }

/-- `Init` of the value: `value.Init(value_.GetSize())`, which refuses a size of 0. -/
def initValue (value : CMemblock) (heap : Heap) (value_ : CMemblock) : Option CMemblock :=
  if value_.getSize = 0 then some value else (heap.new value_.getSize).map CMemblock.init

/-- `Init`. It throws where `new` does. -/
def init (msg : ReplicatedLogMsg) (heap : Heap) (nodeID_ : UInt32)
    (restartCounter_ leaseEpoch_ : UInt64) (value_ : CMemblock) : Option ReplicatedLogMsg := do
  let value ← initValue msg.value heap value_
  let value ← value.write heap (bytesFrom value_.mpcBase value_.mpcReadPt value.getSize)
  return { nodeID := nodeID_, restartCounter := restartCounter_, leaseEpoch := leaseEpoch_, value }

/-- `%d` -/
def intText (d : Int32) : List UInt8 :=
  if d < 0 then ascii '-' :: numeral d.toInt.natAbs else numeral d.toInt.toNat

/-- The line that `snprintf` prints: `"%u:%llu:%llu:%d:"`. -/
def headerLine (msg : ReplicatedLogMsg) : List UInt8 :=
  text "%u:%llu:%llu:".toList [.unsigned msg.nodeID, .unsignedLongLong msg.restartCounter,
    .unsignedLongLong msg.leaseEpoch] ++
  intText (UInt32.ofNat msg.value.getSize).toInt32 ++ [ascii ':']

/-- `Write`. The bytes of the value are taken from its write pointer on. -/
def write (msg : ReplicatedLogMsg) (heap : Heap) (data : CMemblock) : Option CMemblock :=
  let r := snprintfLine data.mpcBase data.getWrite data.getDirectSpace (headerLine msg)
  let data := { data with mpcBase := r.1 }.setWrite r.2
  data.write heap (bytesFrom msg.value.mpcBase msg.value.getWrite msg.value.getSize)

/-- The arguments of `snreadf`. -/
inductive Field where
  | nodeID
  | restartCounter
  | leaseEpoch
  | value

/-- What `snreadf` does to the field it was given the address of. The format never stores a
value of another type than the field's. -/
def Field.store (msg : ReplicatedLogMsg) : Field → Value → ReplicatedLogMsg
  | nodeID, .unsigned u => { msg with nodeID := u }
  | restartCounter, .uint64 u => { msg with restartCounter := u }
  | leaseEpoch, .uint64 u => { msg with leaseEpoch := u }
  | value, .init body => { msg with value := initOn msg.value body }
  | _, _ => msg

/-- The values go to the fields one by one, as far as there are values. -/
def storeAll (msg : ReplicatedLogMsg) : List Field → List Value → ReplicatedLogMsg
  | f :: fields, v :: values => storeAll (f.store msg v) fields values
  | _, _ => msg

/-- `Read`: the result, and the message as the reader left it. -/
def read (msg : ReplicatedLogMsg) (data : CMemblock) : Bool × ReplicatedLogMsg :=
  match snreadf data.getRead (UInt32.ofNat data.getSize) "%u:%U:%U:%N" [] with
  | none => (false, msg) -- the assertion on an unknown directive
  | some (read, values) =>
    (decide (read = (UInt32.ofNat data.getSize).toInt32.toInt),
      storeAll msg [.nodeID, .restartCounter, .leaseEpoch, .value] values)

-- ---------------------------------------------------------------------------
-- Reading
-- ---------------------------------------------------------------------------

/-- The text of a message with a value. -/
def textOf (nodeID : UInt32) (restartCounter leaseEpoch : UInt64) (body : List UInt8) :
    List UInt8 :=
  numeral nodeID.toNat ++
    (fieldsText [numeral restartCounter.toNat, numeral leaseEpoch.toNat, numeral body.length] ++
      ascii ':' :: body)

variable {body : List UInt8}

theorem readFormat_eq : "%u:%U:%U:%N".toList =
    '%' :: 'u' :: (Width.w64.readFormat ++ (Width.w64.readFormat ++ [':', '%', 'N'])) := by
  decide

theorem textOf_append (nodeID : UInt32) (restartCounter leaseEpoch : UInt64)
    (body tail : List UInt8) :
    textOf nodeID restartCounter leaseEpoch body ++ tail =
      numeral nodeID.toNat ++ (ascii ':' :: numeral restartCounter.toNat ++
        (ascii ':' :: numeral leaseEpoch.toNat ++
          (ascii ':' :: (numeral body.length ++ ascii ':' :: body ++ tail)))) := by
  simp [textOf]

theorem length_textOf (nodeID : UInt32) (restartCounter leaseEpoch : UInt64) (body : List UInt8) :
    (textOf nodeID restartCounter leaseEpoch body).length =
      (numeral nodeID.toNat).length + (1 + (numeral restartCounter.toNat).length) +
        (1 + (numeral leaseEpoch.toNat).length) +
        (1 + ((numeral body.length).length + 1 + body.length)) := by
  simp [textOf]
  omega

/-- Every text with a value is read right. -/
theorem read_textOf (msg : ReplicatedLogMsg) (nodeID : UInt32) (restartCounter leaseEpoch : UInt64)
    {data : CMemblock} (hdata : textOf nodeID restartCounter leaseEpoch body <+: data.getRead)
    (hsize : data.getSize = (textOf nodeID restartCounter leaseEpoch body).length)
    (hsmall : data.getSize < 2 ^ 31) :
    msg.read data =
      (true, { nodeID, restartCounter, leaseEpoch, value := initOn msg.value body }) := by
  obtain ⟨tail, htail⟩ := hdata
  rw [length_textOf] at hsize
  have hnat : (UInt32.ofNat data.getSize).toNat = data.getSize :=
    UInt32.toNat_ofNat_of_lt' (by simp only [UInt32.size]; omega)
  have hint : (UInt32.ofNat data.getSize).toInt32.toInt = data.getSize := by
    rw [toInt32_toInt (by omega), hnat]
  rw [read, snreadf, readFormat_eq, ← htail, textOf_append]
  generalize UInt32.ofNat data.getSize = length at hnat hint ⊢
  rw [vsnreadf_u_of (numeral_isNumeral _) (by omega) (by omega) (field_ends _)]
  have h₁ := toNat_sub_ofNat (x := length) (n := (numeral nodeID.toNat).length) (by omega)
  generalize length - UInt32.ofNat (numeral nodeID.toNat).length = length₁ at h₁ ⊢
  rw [vsnreadf_field_of (numeral_isNumeral _) (by omega) (by omega) (field_ends _)]
  have h₂ := toNat_sub_ofNat (x := length₁ - 1) (n := (numeral restartCounter.toNat).length)
    (by rw [toNat_sub_one] <;> omega)
  rw [toNat_sub_one (by omega)] at h₂
  generalize length₁ - 1 - UInt32.ofNat (numeral restartCounter.toNat).length = length₂ at h₂ ⊢
  rw [vsnreadf_field_of (numeral_isNumeral _) (by omega) (by omega) (colon_ends _)]
  have h₃ := toNat_sub_ofNat (x := length₂ - 1) (n := (numeral leaseEpoch.toNat).length)
    (by rw [toNat_sub_one] <;> omega)
  rw [toNat_sub_one (by omega)] at h₃
  generalize length₂ - 1 - UInt32.ofNat (numeral leaseEpoch.toNat).length = length₃ at h₃ ⊢
  have hone : ¬ length₃ < 1 := by
    have h1 : (1 : UInt32).toNat = 1 := rfl
    rw [UInt32.lt_iff_toNat_lt]
    omega
  have h₄ := toNat_sub_one (x := length₃) (by omega)
  rw [vsnreadf_colon, if_neg hone, if_neg (by simp), List.drop_one, List.tail_cons,
    vsnreadf_N_of (by omega) (by omega), vsnreadf]
  have hread : (0 : Int) + (numeral nodeID.toNat).length + 1 +
      (numeral restartCounter.toNat).length + 1 + (numeral leaseEpoch.toNat).length + 1 +
      ((numeral body.length).length + 1 + body.length : Nat) = length.toInt32.toInt := by
    rw [hint, hsize]
    push_cast
    omega
  simp only [stored, Option.map_some, value_numeral, Width.stored, hread, decide_true,
    UInt32.ofNat_toNat, UInt64.ofNat_toNat]
  rfl

-- ---------------------------------------------------------------------------
-- Writing
-- ---------------------------------------------------------------------------

/-- To write no bytes changes nothing. -/
theorem write_nil {block : CMemblock} {heap : Heap} (hsize : block.muSize ≤ block.muCapacity)
    (hcapacity : block.muCapacity < 2 ^ 63) : block.write heap [] = some block := by
  have hexpand : block.expand heap 0 = some block := by
    have hroom := CMemblock.subSize_subSize (c := 0) (by omega) (by omega : block.muCapacity < 2 ^ 64)
    unfold CMemblock.expand
    simp only [hroom]
    rw [if_neg (by omega)]
  simp [CMemblock.write, hexpand, CMemblock.append, store]

variable {heap : Heap} {nodeID nodeID' : UInt32}
  {restartCounter leaseEpoch restartCounter' leaseEpoch' : UInt64} {value_ : CMemblock}
  {msg : ReplicatedLogMsg}

/-- `Init` sets the numbers and leaves the value without a byte: the size it copies is that of
its own block, which is empty. -/
theorem init_fresh (hinit : (fresh nodeID' restartCounter' leaseEpoch').init heap nodeID
      restartCounter leaseEpoch value_ = some msg) :
    msg.nodeID = nodeID ∧ msg.restartCounter = restartCounter ∧ msg.leaseEpoch = leaseEpoch ∧
      msg.value.muSize = 0 := by
  simp only [init, bind, pure, Option.bind_eq_some_iff, Option.some.injEq] at hinit
  obtain ⟨block, hblock, written, hwritten, rfl⟩ := hinit
  refine ⟨rfl, rfl, rfl, ?_⟩
  have hempty : block.muSize = 0 ∧ block.muCapacity < 2 ^ 63 := by
    unfold initValue at hblock
    split at hblock
    · cases hblock
      exact ⟨rfl, Nat.two_pow_pos 63⟩
    · obtain ⟨memory, hmemory, rfl⟩ := Option.map_eq_some_iff.mp hblock
      have hlen := heap.length_new hmemory
      have hle := heap.new_le hmemory
      refine ⟨rfl, ?_⟩
      change memory.length < 2 ^ 63
      omega
  have hbytes : bytesFrom value_.mpcBase value_.mpcReadPt block.getSize = [] := by
    rw [CMemblock.getSize, hempty.1]
    rfl
  rw [hbytes, write_nil (by omega) hempty.2] at hwritten
  cases hwritten
  exact hempty.1

/-- A fresh message takes an empty value. -/
theorem init_empty (hvalue : value_.muSize = 0) :
    (fresh nodeID' restartCounter' leaseEpoch').init heap nodeID restartCounter leaseEpoch value_ =
      some (fresh nodeID restartCounter leaseEpoch) := by
  have hblock : initValue emptyBlock heap value_ = some emptyBlock := if_pos hvalue
  have hwrite : emptyBlock.write heap [] = some emptyBlock := write_nil (by decide) (by decide)
  have hbytes : bytesFrom value_.mpcBase value_.mpcReadPt emptyBlock.getSize = [] := rfl
  simp only [init, fresh, hblock, bind, pure, Option.bind_some, hbytes, hwrite]

/-- What is printed when the value has no bytes. -/
theorem headerLine_eq (hvalue : msg.value.muSize = 0) :
    headerLine msg = textOf msg.nodeID msg.restartCounter msg.leaseEpoch [] := by
  have hformat : "%u:%llu:%llu:".toList =
      ['%', 'u', ':', '%', 'l', 'l', 'u', ':', '%', 'l', 'l', 'u', ':'] := by decide
  have hzero : intText (UInt32.ofNat 0).toInt32 = [48] := by decide
  have hnumeral : numeral 0 = [48] := rfl
  rw [headerLine, hformat, CMemblock.getSize, hvalue, hzero]
  simp [text, textOf, hnumeral]

variable (nodeID restartCounter leaseEpoch) in
/-- The line needs no more than 65 bytes. -/
theorem length_textOf_le : (textOf nodeID restartCounter leaseEpoch []).length ≤ 65 := by
  have h₁ : (numeral nodeID.toNat).length ≤ 10 := by
    have := nodeID.toNat_lt
    exact length_numeral_le (by omega) (by decide)
  have h₂ : (numeral restartCounter.toNat).length ≤ 20 := by
    have := restartCounter.toNat_lt
    exact length_numeral_le (by omega) (by decide)
  have h₃ : (numeral leaseEpoch.toNat).length ≤ 20 := by
    have := leaseEpoch.toNat_lt
    exact length_numeral_le (by omega) (by decide)
  have h₄ : (numeral (List.length ([] : List UInt8))).length = 1 := rfl
  rw [length_textOf, h₄, List.length_nil]
  omega

variable (heap msg) in
/-- A message without a value is written into an empty block as its text. -/
theorem write_empty (memory : List UInt8) (hroom : 66 ≤ memory.length)
    (hle : memory.length ≤ 2 ^ 57) (hvalue : msg.value.muSize = 0) :
    ∃ data, msg.write heap (.init memory) = some data ∧
      data.getSize = (textOf msg.nodeID msg.restartCounter msg.leaseEpoch []).length ∧
      textOf msg.nodeID msg.restartCounter msg.leaseEpoch [] <+: data.getRead := by
  have hlen := length_textOf_le msg.nodeID msg.restartCounter msg.leaseEpoch
  rw [write, headerLine_eq hvalue]
  generalize textOf msg.nodeID msg.restartCounter msg.leaseEpoch [] = line at hlen
  have htake := take_drop_snprintfLine memory 0 memory.length line (by omega) (Nat.zero_le _)
  have hret : (snprintfLine memory 0 memory.length line).2 = line.length := rfl
  have hbytes : bytesFrom msg.value.mpcBase msg.value.getWrite msg.value.getSize = [] := by
    rw [CMemblock.getSize, hvalue]
    rfl
  have hroom' : ¬ memory.length < line.length := by omega
  simp only [CMemblock.init, CMemblock.getWrite, CMemblock.getDirectSpace, Nat.sub_zero, hret,
    CMemblock.setWrite, if_neg hroom', Nat.zero_add]
  rw [CMemblock.getWrite] at hbytes
  rw [hbytes, write_nil (by simp only; omega) (by simp only; omega)]
  refine ⟨_, rfl, rfl, ?_⟩
  have hpre := List.take_prefix line.length
    ((snprintfLine memory 0 memory.length line).1.drop 0)
  rw [htake] at hpre
  exact hpre

-- ---------------------------------------------------------------------------
-- The round trip
-- ---------------------------------------------------------------------------

/-- A message is initialised, written into an empty block and read from it into another one,
and this has the numbers and the bytes of the value. -/
def RoundTrips (writer reader : ReplicatedLogMsg) (heap : Heap) (memory : List UInt8)
    (nodeID : UInt32) (restartCounter leaseEpoch : UInt64) (value_ : CMemblock) : Prop :=
  ∃ msg, writer.init heap nodeID restartCounter leaseEpoch value_ = some msg ∧
    ∃ data, msg.write heap (.init memory) = some data ∧
      ∃ msg', reader.read data = (true, msg') ∧ msg'.nodeID = nodeID ∧
        msg'.restartCounter = restartCounter ∧ msg'.leaseEpoch = leaseEpoch ∧
        msg'.value.unread = value_.unread

variable {nodeID'' : UInt32} {restartCounter'' leaseEpoch'' : UInt64} {memory : List UInt8}
  {capacity : Nat}

/-- What a fresh message holds after the round trip: the numbers, and no value. -/
theorem read_written {data : CMemblock} (hnew : heap.new capacity = some memory)
    (hroom : 66 ≤ capacity) (hvalue : msg.value.muSize = 0)
    (hwrite : msg.write heap (.init memory) = some data) :
    (fresh nodeID' restartCounter' leaseEpoch').read data =
      (true, fresh msg.nodeID msg.restartCounter msg.leaseEpoch) := by
  have hlength := heap.length_new hnew
  have hle := heap.new_le hnew
  obtain ⟨data', hwrite', hsize, hpre⟩ := write_empty heap msg memory (by omega) (by omega)
    hvalue
  obtain rfl : data' = data := Option.some.inj (hwrite'.symm.trans hwrite)
  have hmax := length_textOf_le msg.nodeID msg.restartCounter msg.leaseEpoch
  have hsmall : data'.getSize < 2 ^ 31 := by
    rw [hsize]
    omega
  exact read_textOf _ _ _ _ hpre hsize hsmall

/-- Fresh messages make the round trip if and only if the value is empty. -/
theorem roundTrips_iff (hnew : heap.new capacity = some memory) (hroom : 66 ≤ capacity)
    (hvalue_ : value_.unread.length = value_.getSize) :
    RoundTrips (fresh nodeID' restartCounter' leaseEpoch')
        (fresh nodeID'' restartCounter'' leaseEpoch'') heap memory nodeID restartCounter leaseEpoch
        value_ ↔
      value_.unread = [] := by
  constructor
  · rintro ⟨msg, hinit, data, hwrite, msg', hread, -, -, -, hsame⟩
    obtain ⟨-, -, -, hvalue⟩ := init_fresh hinit
    rw [read_written hnew hroom hvalue hwrite] at hread
    cases hread
    exact hsame.symm
  · intro hempty
    have hzero : value_.muSize = 0 := by
      rw [hempty, CMemblock.getSize, List.length_nil] at hvalue_
      exact hvalue_.symm
    have hlength := heap.length_new hnew
    have hle := heap.new_le hnew
    obtain ⟨data, hwrite, -⟩ := write_empty heap (fresh nodeID restartCounter leaseEpoch) memory
      (by omega) (by omega) rfl
    exact ⟨_, init_empty hzero, data, hwrite, _, read_written hnew hroom rfl hwrite, rfl, rfl,
      rfl, hempty.symm⟩

/-- A value of one byte. -/
def oneByte : CMemblock := initOn emptyBlock [120]

theorem roundTrips_empty :
    RoundTrips (fresh 0 0 0) (fresh 0 0 0) CMemblock.zeroHeap (List.replicate 66 0) 7 1 2
      emptyBlock := by
  have hnew : CMemblock.zeroHeap.new 66 = some (List.replicate 66 0) := rfl
  exact (roundTrips_iff hnew (by decide) rfl).mpr rfl

/-- The value of one byte is lost. -/
theorem roundTrips_oneByte :
    ¬ RoundTrips (fresh 0 0 0) (fresh 0 0 0) CMemblock.zeroHeap (List.replicate 66 0) 7 1 2
      oneByte := by
  rintro ⟨msg, hinit, data, hwrite, msg', hread, -, -, -, hsame⟩
  obtain ⟨-, -, -, hvalue⟩ := init_fresh hinit
  have hnew : CMemblock.zeroHeap.new 66 = some (List.replicate 66 0) := rfl
  rw [read_written hnew (by decide) hvalue hwrite] at hread
  cases hread
  have hlost : emptyBlock.unread ≠ oneByte.unread := by decide
  exact hlost hsame

end ReplicatedLogMsg

end PL
