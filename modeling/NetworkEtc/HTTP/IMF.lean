-- SUMMARY: The server's copy of the header parser: request lines, header lines and fields.
import NetworkEtc.HTTPClient.GetField

/-!
# The Internet message format, for the server

The server has a copy of `LineParse`, of the scanners and of `GetField`. Its `Parse` is an older one:
it knows of no chunks, and it does not look for the empty line.
-/

namespace HTTP

open Library Library.Printf HTTPClient

/-- `RequestLine`. The lengths are -1 always. -/
structure RequestLine where
  method : Option Nat
  uri : Option Nat
  version : Option Nat
  deriving DecidableEq

/-- `RequestLine::Parse` -/
def RequestLine.parse (memory : List UInt8) (buf : Nat) (len : Int) (offs : Nat) :
    Int × RequestLine × List UInt8 :=
  let (r, ⟨method, uri, version⟩, memory) := lineParse memory buf len offs
  (r, ⟨method, uri, version⟩, memory)

/-- What `new KeyValue[n]` gives for each `n`: memory with whatever it holds. -/
abbrev NewHeaders : Type := Nat → Nat → KeyValue

structure CIMFHeader where
  miHeaderSize : Nat
  miCapHeaderSize : Nat
  mpoHeaders : Nat → KeyValue
  mpcData : Option Nat

namespace CIMFHeader

/-- `Init`; the buffer holds whatever it holds. -/
def init (moHeaderBuffer : Nat → KeyValue) : CIMFHeader where
  miHeaderSize := 0
  miCapHeaderSize := keyvalBufferSize
  mpoHeaders := moHeaderBuffer
  mpcData := none

/-- `GetmpoHeaders`. No more entries are copied than `miHeaderSize` says. -/
def getmpoHeaders (header : CIMFHeader) (fresh : NewHeaders) (newSize : Nat) : CIMFHeader :=
  if newSize < header.miCapHeaderSize then header
  else
    let capacity := header.miCapHeaderSize * 2
    { header with
      miCapHeaderSize := capacity
      mpoHeaders := fun i =>
        if i < header.miHeaderSize then header.mpoHeaders i else fresh capacity i }

/-- `GetField` -/
def getField (header : CIMFHeader) (memory : List UInt8) (key : List UInt8) : Option Nat :=
  header.mpcData.bind fun mpcData =>
    ((List.range header.miHeaderSize).find? fun i =>
      let keyval := header.mpoHeaders i
      HTTPClient.CIMFHeader.equalNoCase keyval.keyLength key (memory.drop (mpcData + keyval.keyStart))).map fun i =>
        mpcData + (header.mpoHeaders i).valueStart

/-- The loop of `Parse`, with `nkv` headers so far. -/
def headerLoop (fresh : NewHeaders) (buf : Nat) (len : Int) :
    Nat → CIMFHeader → List UInt8 → Nat → Nat → CIMFHeader × List UInt8 × Nat × Nat
  | 0, header, memory, p, nkv => (header, memory, p, nkv)
  | fuel + 1, header, memory, p, nkv =>
    let remlen (p : Nat) : Int := len - (p - buf)
    if (buf : Int) + len ≤ p then (header, memory, p, nkv)
    else
      let key := p
      match seekChar memory (some key) (remlen key) (ascii ':') with
      | none => (header, memory, key, nkv)
      | some p =>
        let keylen := p - key
        let memory := memory.set p 0
        match skipWhitespace memory (some (p + 1)) (remlen (p + 1)) with
        | none => (header, memory, key, nkv)
        | some value =>
          match seekCrlf memory (some value) (remlen value) with
          | none => (header, memory, key, nkv)
          | some p =>
            let header := header.getmpoHeaders fresh nkv
            let keyvalue : KeyValue := ⟨key - buf, keylen, value - buf, p - value⟩
            let header :=
              { header with mpoHeaders := Function.update header.mpoHeaders nkv keyvalue }
            headerLoop fresh buf len fuel header (memory.set p 0) (p + 2) (nkv + 1)

/-- `Parse` -/
def parse (header : CIMFHeader) (fresh : NewHeaders) (memory : List UInt8) (buf : Nat) (len : Int)
    (offs : Nat) : Int × CIMFHeader × List UInt8 :=
  let header := { header with mpcData := some buf }
  match skipCrlf memory (some (buf + offs)) (len - offs) with
  | none => (-1, header, memory)
  | some p =>
    let (header, memory, p, nkv) :=
      headerLoop fresh buf len (len.toNat + 1) header memory p header.miHeaderSize
    ((p : Int) - buf, { header with miHeaderSize := nkv }, memory)

/-- The table, as the client's copy of `GetField` looks at it. -/
def client (header : CIMFHeader) : HTTPClient.CIMFHeader :=
  { HTTPClient.CIMFHeader.init header.mpoHeaders fun _ => ⟨0, 0⟩ with
    miHeaderSize := header.miHeaderSize
    miCapHeaderSize := header.miCapHeaderSize
    mpcData := header.mpcData }

@[simp] theorem getField_client (header : CIMFHeader) (memory key : List UInt8) :
    header.client.getField memory key = header.getField memory key := rfl

section

variable {header header' : CIMFHeader} {fresh : NewHeaders} {memory memory' : List UInt8}
  {buf fuel offs p q nkv : Nat} {len : Int}

theorem parse_none (hskip : skipCrlf memory (some (buf + offs)) (len - offs) = none) :
    header.parse fresh memory buf len offs = (-1, { header with mpcData := some buf }, memory) := by
  rw [parse, hskip]

theorem parse_some (hskip : skipCrlf memory (some (buf + offs)) (len - offs) = some p)
    (hloop : headerLoop fresh buf len (len.toNat + 1) { header with mpcData := some buf } memory p
      header.miHeaderSize = (header', memory', q, nkv)) :
    header.parse fresh memory buf len offs =
      ((q : Int) - buf, { header' with miHeaderSize := nkv }, memory') := by
  rw [parse]
  simp only [hskip, hloop]

/-! # Rounds of the loop -/

/-- The loop ends where the bytes end. -/
theorem headerLoop_end (hp : (buf : Int) + len ≤ p) :
    headerLoop fresh buf len fuel header memory p nkv = (header, memory, p, nkv) := by
  cases fuel with
  | zero => rfl
  | succ fuel =>
    rw [headerLoop]
    exact if_pos hp

/-- The loop, by what its next round makes of the line. -/
theorem headerLoop_next (fresh : NewHeaders) (fuel : Nat) (header : CIMFHeader) (nkv : Nat)
    (hlt : (p : Int) < buf + len) :
    headerLoop fresh buf len (fuel + 1) header memory p nkv =
      match nextLine memory buf len p with
      | (memory, none) => (header, memory, p, nkv)
      | (memory, some (keyvalue, p)) =>
        headerLoop fresh buf len fuel
          { header.getmpoHeaders fresh nkv with
            mpoHeaders := Function.update (header.getmpoHeaders fresh nkv).mpoHeaders nkv keyvalue }
          memory p (nkv + 1) := by
  rw [headerLoop, nextLine]
  simp only
  rw [if_neg (Int.not_le.mpr hlt)]
  cases seekChar memory (some p) (len - (p - buf)) (ascii ':') with
  | none => rfl
  | some q =>
    simp only
    cases skipWhitespace (memory.set q 0) (some (q + 1)) (len - ((q + 1 : Nat) - buf)) with
    | none => rfl
    | some value =>
      simp only
      cases seekCrlf (memory.set q 0) (some value) (len - (value - buf)) with
      | none => rfl
      | some r => rfl

end

end CIMFHeader

end HTTP
