-- SUMMARY: Internet addresses, the ids made of them, and how they are read from text.
import NetworkEtc.Library.Decimal
import NetworkEtc.Library.Printf

/-!
# `CSockAddr`
-/

namespace Netfram

open Library Library.Decimal Library.Printf

/-- An address of the Internet, as `CSockAddr` keeps it. -/
structure SockAddr where
  ip : UInt32
  port : UInt16
  deriving DecidableEq

/-- `CSockAddr::GetID` -/
def SockAddr.getID (addr : SockAddr) : UInt64 := (addr.port.toUInt64 <<< 32) ||| addr.ip.toUInt64

theorem SockAddr.getID_injective : Function.Injective SockAddr.getID := by
  rintro ⟨ip, port⟩ ⟨ip', port'⟩ h
  have hip : ∀ (port : UInt16) (ip : UInt32),
      ((port.toUInt64 <<< 32) ||| ip.toUInt64).toUInt32 = ip := by
    intro port ip
    apply UInt32.toBitVec_inj.mp
    ext i
    simp
  have hport : ∀ (port : UInt16) (ip : UInt32),
      (((port.toUInt64 <<< 32) ||| ip.toUInt64) >>> 32).toUInt16 = port := by
    intro port ip
    apply UInt16.toBitVec_inj.mp
    ext i hi
    have hi' : 32 + i < 64 := by omega
    simp [hi, hi', Nat.lt_of_add_left_lt hi']
  simp only [getID] at h
  have h₁ := congrArg UInt64.toUInt32 h
  have h₂ := congrArg (fun id : UInt64 => (id >>> 32).toUInt16) h
  simp only [hip, hport] at h₁ h₂
  rw [h₁, h₂]

/-! # Reading an address

A pointer to a string is the memory from it on; behind the end of the list there are zeros.
-/

/-- A `CSockAddr` with its family; `port` is in host order. -/
structure CSockAddr extends SockAddr where
  family : UInt16
  deriving DecidableEq

/-- `AF_INET` -/
def afInet : UInt16 := 2

/-- `s_addr` of the address with these octets, on a little-endian machine. -/
def inAddr (a b c d : UInt8) : UInt32 :=
  a.toUInt32 ||| b.toUInt32 <<< 8 ||| c.toUInt32 <<< 16 ||| d.toUInt32 <<< 24

/-- An octet in decimal, without leading zeros. -/
def octet? (ds : List UInt8) : Option UInt8 :=
  if IsNumeral ds ∧ numeral (value ds) = ds ∧ value ds ≤ 255 then some (UInt8.ofNat (value ds))
  else none

/-- `inet_pton(AF_INET, ..)` -/
def inetPton (text : List UInt8) : Option UInt32 :=
  match (text.splitOn (ascii '.')).map octet? with
  | [some a, some b, some c, some d] => some (inAddr a b c d)
  | _ => none

/-- The string at a pointer, without the zero at its end. -/
def cstr (p : List UInt8) : List UInt8 := p.takeWhile (· ≠ 0)

/-- `atoi`: blanks, a sign, digits. A number too large for a `long` is the largest one. -/
def atoi (p : List UInt8) : Int32 :=
  let text := p.dropWhile fun c => c = 32 ∨ (9 ≤ c ∧ c ≤ 13)
  let digits := fun text : List UInt8 => (value (text.takeWhile isDigit) : Int)
  match text with
  | 45 :: rest => Int32.ofInt (max (-(2 ^ 63)) (-digits rest)) -- a minus sign
  | 43 :: rest => Int32.ofInt (min (2 ^ 63 - 1) (digits rest)) -- a plus sign
  | text => Int32.ofInt (min (2 ^ 63 - 1) (digits text))

/-- Where the last `':'` is. -/
def lastColon : List UInt8 → Option Nat
  | [] => none
  | c :: rest =>
    match lastColon rest with
    | some k => some (k + 1)
    | none => if c = ascii ':' then some 0 else none

namespace CSockAddr

/-- `SetIP`, for an address of the Internet. -/
def setIP (addr : CSockAddr) (text : List UInt8) : Int × CSockAddr :=
  match inetPton text with
  | some ip => (0, { addr with ip })
  | none => (-1, addr)

/-- `Set(apcIPaddr, auPort)` -/
def set (addr : CSockAddr) (text : List UInt8) (port : UInt16) : Int × CSockAddr :=
  setIP { addr with family := afInet, port } text

/-- `Set(apcau64ID)`: 21 bytes are copied to `lacBuffer`, whatever they are; `behind` is the
memory behind `lacBuffer`. -/
def setText (addr : CSockAddr) (p behind : List UInt8) : Int × CSockAddr :=
  let bytes := (p ++ List.replicate 21 0).take 21
  let lacBuffer := bytes.map fun c => if c = ascii ':' then 0 else c
  match lastColon bytes with
  | none => (-1, addr)
  | some k =>
    if 16 < k + 1 then (-1, addr)
    else
      addr.set (cstr lacBuffer) (atoi (lacBuffer.drop (k + 1) ++ behind)).toUInt32.toUInt16

end CSockAddr

/-! # Addresses in text -/

/-- An address `a.b.c.d:port` with a port of its own. -/
structure DottedAddr where
  a : UInt8
  b : UInt8
  c : UInt8
  d : UInt8
  port : UInt16
  port_ne_zero : port ≠ 0
  deriving DecidableEq

section

variable {l m rest ds behind : List UInt8} {n k : Nat} {addr : CSockAddr}

theorem lastColon_append : lastColon (l ++ m) =
    ((lastColon m).map (l.length + ·)).or (lastColon l) := by
  induction l with
  | nil => simp [lastColon]
  | cons c l ih =>
    simp only [List.cons_append, lastColon, ih]
    cases lastColon m with
    | none => simp
    | some k =>
      simp only [Option.map_some, Option.some_or, List.length_cons]
      congr 1
      omega

theorem lastColon_eq_none : lastColon l = none ↔ ascii ':' ∉ l := by
  induction l with
  | nil => simp [lastColon]
  | cons c l ih =>
    rw [List.mem_cons, not_or, ← ih, lastColon]
    cases lastColon l with
    | none =>
      simp only [and_true]
      split
      · next heq => simp [heq]
      · next hne => simp [Ne.symm hne]
    | some k => simp

theorem getElem?_lastColon (h : lastColon l = some k) : l[k]? = some (ascii ':') := by
  induction l generalizing k with
  | nil => cases h
  | cons c l ih =>
    rw [lastColon] at h
    cases hl : lastColon l with
    | none =>
      rw [hl] at h
      simp only [Option.ite_none_right_eq_some, Option.some.injEq] at h
      obtain ⟨rfl, rfl⟩ := h
      rfl
    | some m =>
      rw [hl] at h
      cases h
      exact ih hl

theorem cstr_append (h : 0 ∉ l) : cstr (l ++ 0 :: m) = l := by
  unfold cstr
  rw [List.takeWhile_append_of_pos]
  · simp
  · intro c hc
    simp only [ne_eq, decide_eq_true_eq]
    rintro rfl
    exact h hc

theorem idxOf?_append {c : UInt8} (hc : c ∉ l) : (l ++ c :: m).idxOf? c = some l.length := by
  induction l with
  | nil => simp [List.idxOf?_cons]
  | cons d l ih =>
    rw [List.mem_cons, not_or] at hc
    rw [List.cons_append, List.idxOf?_cons, ih hc.2, if_neg (by simpa using Ne.symm hc.1)]
    rfl

theorem idxOf?_eq_some {c : UInt8} (h : l.idxOf? c = some n) :
    ∃ front back, l = front ++ c :: back ∧ c ∉ front ∧ front.length = n := by
  have hmem : c ∈ l := List.isSome_idxOf?.mp (Option.isSome_of_mem h)
  obtain ⟨front, back, hl, hnot⟩ := List.eq_append_cons_of_mem hmem
  rw [hl, idxOf?_append hnot] at h
  exact ⟨front, back, hl, hnot, Option.some.inj h⟩

theorem isDigit_ne {c e : UInt8} (h : isDigit c = true) (he : isDigit e = false) : c ≠ e := by
  rintro rfl
  rw [h] at he
  exact Bool.noConfusion he

/-- The number at the start of a text. -/
theorem atoi_append (hds : IsNumeral ds) (hrest : ∀ c ∈ rest.head?, isDigit c = false)
    (hlt : value ds < 2 ^ 31) : atoi (ds ++ rest) = Int32.ofInt (value ds) := by
  obtain ⟨hne, hdigits⟩ := hds
  cases ds with
  | nil => exact absurd rfl hne
  | cons c ds =>
    have hc := hdigits c List.mem_cons_self
    have htake : (c :: ds ++ rest).takeWhile isDigit = c :: ds := by
      rw [List.takeWhile_append_of_pos hdigits]
      cases rest with
      | nil => simp
      | cons e rest => simp [hrest e rfl]
    have hblank : (c :: ds ++ rest).dropWhile (fun c => c = 32 ∨ (9 ≤ c ∧ c ≤ 13)) =
        c :: ds ++ rest := by
      rw [isDigit_iff] at hc
      have hnot : ¬ (c = 32 ∨ (9 ≤ c ∧ c ≤ 13)) := by
        rw [← UInt8.toNat_inj, UInt8.le_iff_toNat_le, UInt8.le_iff_toNat_le]
        change ¬ (c.toNat = 32 ∨ (9 ≤ c.toNat ∧ c.toNat ≤ 13))
        omega
      simp [hnot]
    have hminus : c ≠ 45 := isDigit_ne hc rfl
    have hplus : c ≠ 43 := isDigit_ne hc rfl
    unfold atoi
    simp only [hblank]
    rw [List.cons_append] at *
    split
    · next heq => exact absurd (List.cons.inj heq).1 hminus
    · next heq => exact absurd (List.cons.inj heq).1 hplus
    · rw [htake, min_eq_right (by omega)]

end

namespace DottedAddr

/-- The part in front of the `':'`. -/
def ipText (x : DottedAddr) : List UInt8 :=
  [ascii '.'].intercalate
    [numeral x.a.toNat, numeral x.b.toNat, numeral x.c.toNat, numeral x.d.toNat]

def text (x : DottedAddr) : List UInt8 := x.ipText ++ ascii ':' :: numeral x.port.toNat

/-- What a `CSockAddr` that is set to the address holds. -/
def addr (x : DottedAddr) : CSockAddr := ⟨⟨inAddr x.a x.b x.c x.d, x.port⟩, afInet⟩

variable {x : DottedAddr}

theorem addr_injective : Function.Injective addr := by
  have hoctets : ∀ a b c d : UInt8, (inAddr a b c d).toUInt8 = a ∧
      (inAddr a b c d >>> 8).toUInt8 = b ∧ (inAddr a b c d >>> 16).toUInt8 = c ∧
      (inAddr a b c d >>> 24).toUInt8 = d := by
    intro a b c d
    have hhigh : ∀ (e : UInt8) (i : Nat), 8 ≤ i → e.toBitVec.getLsbD i = false :=
      fun e i hi => BitVec.getLsbD_of_ge _ _ hi
    refine ⟨?_, ?_, ?_, ?_⟩ <;>
    · apply UInt8.toBitVec_inj.mp
      ext i hi
      have hi₀ : i < 32 ∧ 8 + i < 16 ∧ 8 + i < 24 ∧ 8 + i < 32 ∧ 16 + i < 24 ∧ 16 + i < 32 ∧
          24 + i < 32 := by omega
      simp (disch := omega) [inAddr, hi₀]
  rintro ⟨a, b, c, d, port, hport⟩ ⟨a', b', c', d', port', hport'⟩ h
  obtain ⟨ha, hb, hc, hd⟩ := hoctets a b c d
  obtain ⟨ha', hb', hc', hd'⟩ := hoctets a' b' c' d'
  have hip : inAddr a b c d = inAddr a' b' c' d' := congrArg (·.ip) h
  obtain rfl : port = port' := congrArg (·.port) h
  rw [hip] at ha hb hc hd
  obtain rfl := ha.symm.trans ha'
  obtain rfl := hb.symm.trans hb'
  obtain rfl := hc.symm.trans hc'
  obtain rfl := hd.symm.trans hd'
  rfl

theorem octet?_numeral (e : UInt8) : octet? (numeral e.toNat) = some e := by
  have hle : e.toNat ≤ 255 := Nat.le_of_lt_succ e.toNat_lt
  unfold octet?
  rw [value_numeral, if_pos ⟨numeral_isNumeral _, rfl, hle⟩, UInt8.ofNat_toNat]

theorem notMem_numeral {e : UInt8} (he : isDigit e = false) (n : Nat) : e ∉ numeral n := by
  intro hmem
  exact isDigit_ne ((numeral_isNumeral n).2 e hmem) he rfl

theorem inetPton_ipText : inetPton x.ipText = some (inAddr x.a x.b x.c x.d) := by
  unfold inetPton ipText
  rw [List.splitOn_intercalate]
  · simp [octet?_numeral]
  · intro l hl
    simp only [List.mem_cons, List.not_mem_nil, or_false] at hl
    rcases hl with rfl | rfl | rfl | rfl <;> exact notMem_numeral rfl _
  · simp

theorem mem_ipText {e : UInt8} (h : e ∈ x.ipText) : isDigit e = true ∨ e = ascii '.' := by
  simp only [ipText, List.intercalate, List.intersperse, List.flatten_cons, List.flatten_nil,
    List.append_nil, List.mem_append, List.mem_singleton] at h
  have hdigit : ∀ n, e ∈ numeral n → isDigit e = true := fun n => (numeral_isNumeral n).2 e
  rcases h with h | h | h | h | h | h | h <;> first
    | exact Or.inl (hdigit _ h)
    | exact Or.inr h

theorem colon_notMem_ipText : ascii ':' ∉ x.ipText := by
  intro hmem
  rcases mem_ipText hmem with h | h
  · exact absurd h (by decide)
  · exact absurd h (by decide)

theorem length_numeral_pos (n : Nat) : 0 < (numeral n).length :=
  List.length_pos_iff.mpr (numeral_isNumeral n).1

theorem length_text : x.text.length = x.ipText.length + 1 + (numeral x.port.toNat).length := by
  simp [text, Nat.add_assoc, Nat.add_comm 1]

theorem length_ipText : 7 ≤ x.ipText.length ∧ x.ipText.length ≤ 15 := by
  have hlow := length_numeral_pos
  have hhigh : ∀ e : UInt8, (numeral e.toNat).length ≤ 3 := fun e =>
    length_numeral_le (Nat.lt_of_lt_of_le e.toNat_lt (by decide)) (by decide)
  have ha := hlow x.a.toNat
  have hb := hlow x.b.toNat
  have hc := hlow x.c.toNat
  have hd := hlow x.d.toNat
  have ha' := hhigh x.a
  have hb' := hhigh x.b
  have hc' := hhigh x.c
  have hd' := hhigh x.d
  simp only [ipText, List.intercalate, List.intersperse, List.flatten_cons, List.flatten_nil,
    List.length_append, List.length_cons, List.length_nil]
  omega

theorem length_port : 1 ≤ (numeral x.port.toNat).length ∧ (numeral x.port.toNat).length ≤ 5 :=
  ⟨length_numeral_pos _,
    length_numeral_le (Nat.lt_of_lt_of_le x.port.toNat_lt (by decide)) (by decide)⟩

section

variable {p q rest behind : List UInt8} {addr : CSockAddr} {k : Nat}

theorem zero_notMem_ipText : 0 ∉ x.ipText := by
  intro hmem
  rcases mem_ipText hmem with h | h
  · exact absurd h (by decide)
  · exact absurd h (by decide)

theorem map_cut {l : List UInt8} (hl : ascii ':' ∉ l) :
    l.map (fun c => if c = ascii ':' then 0 else c) = l := by
  refine (List.map_congr_left fun c hc => ?_).trans (List.map_id l)
  rw [if_neg]
  · rfl
  · rintro rfl
    exact hl hc

/-- The bytes behind the last `':'` are taken for the port. -/
theorem setText_at (hbytes : (p ++ List.replicate 21 0).take 21 = x.ipText ++ ascii ':' :: q)
    (hlast : lastColon (x.ipText ++ ascii ':' :: q) = some k) (hk : k < 16) :
    addr.setText p behind =
      (0, ⟨⟨inAddr x.a x.b x.c x.d, (atoi (((x.ipText ++ ascii ':' :: q).map fun c =>
        if c = ascii ':' then 0 else c).drop (k + 1) ++ behind)).toUInt32.toUInt16⟩, afInet⟩) := by
  unfold CSockAddr.setText
  simp only
  rw [hbytes, hlast]
  simp only
  have hcstr : cstr ((x.ipText ++ ascii ':' :: q).map fun c => if c = ascii ':' then 0 else c) =
      x.ipText := by
    rw [List.map_append, List.map_cons, map_cut colon_notMem_ipText, if_pos rfl]
    exact cstr_append zero_notMem_ipText
  rw [if_neg (by omega), hcstr]
  simp only [CSockAddr.set, CSockAddr.setIP, inetPton_ipText]

/-- Without another `':'` behind it, the number behind the `':'` is the port. -/
theorem setText_own (hbytes : (p ++ List.replicate 21 0).take 21 = x.ipText ++ ascii ':' :: q)
    (hq : ascii ':' ∉ q) : addr.setText p behind =
      (0, ⟨⟨inAddr x.a x.b x.c x.d, (atoi (q ++ behind)).toUInt32.toUInt16⟩, afInet⟩) := by
  have hlast : lastColon (x.ipText ++ ascii ':' :: q) = some x.ipText.length := by
    rw [lastColon_append, lastColon, lastColon_eq_none.mpr hq]
    simp
  have hle := x.length_ipText.2
  rw [setText_at hbytes hlast (by omega), List.map_append, List.map_cons,
    map_cut colon_notMem_ipText, map_cut hq, List.drop_append,
    List.drop_eq_nil_of_le (Nat.le_succ x.ipText.length), Nat.add_sub_cancel_left]
  rfl

/-- With a `':'` far behind, nothing is read. -/
theorem setText_stale (hlast : lastColon ((p ++ List.replicate 21 0).take 21) = some k)
    (hk : 16 ≤ k) : addr.setText p behind = (-1, addr) := by
  unfold CSockAddr.setText
  simp only
  rw [hlast]
  simp only
  rw [if_pos (by omega)]

/-- The first 21 bytes of an address that is shorter. -/
theorem take_text (hlen : x.text.length ≤ 20) :
    (x.text ++ 0 :: rest ++ List.replicate 21 0).take 21 =
      x.text ++ 0 :: (rest ++ List.replicate 21 0).take (20 - x.text.length) := by
  rw [List.append_assoc, List.take_append, List.take_of_length_le (by omega)]
  obtain ⟨n, hn⟩ : ∃ n, 21 - x.text.length = n + 1 := ⟨20 - x.text.length, by omega⟩
  rw [hn, List.cons_append, List.take_succ_cons]
  congr 3
  omega

theorem port_atoi (hq : ∀ c ∈ q.head?, isDigit c = false) :
    (atoi (numeral x.port.toNat ++ q)).toUInt32.toUInt16 = x.port := by
  have hport := x.port.toNat_lt
  have hlt : value (numeral x.port.toNat) < 2 ^ 31 := by
    rw [value_numeral]
    omega
  rw [atoi_append (numeral_isNumeral _) hq hlt, value_numeral]
  apply UInt16.toNat_inj.mp
  have hword : (Int32.ofInt x.port.toNat).toUInt32 = UInt32.ofNat x.port.toNat := by
    rw [Int32.ofInt_eq_ofNat, Int32.toUInt32_ofNat']
  rw [hword, UInt32.toNat_toUInt16, UInt32.toNat_ofNat', Nat.mod_mod_of_dvd _ (by decide)]
  exact Nat.mod_eq_of_lt hport

/-- An address of at most 20 characters is read if no `':'` follows within the 21 bytes. -/
theorem setText_read (hlen : x.text.length ≤ 20)
    (hcolon : ascii ':' ∉ rest.take (20 - x.text.length)) :
    addr.setText (x.text ++ 0 :: rest) behind = (0, x.addr) := by
  have hcolon' : ascii ':' ∉ (rest ++ List.replicate 21 0).take (20 - x.text.length) := by
    rw [List.take_append, List.mem_append, not_or]
    refine ⟨hcolon, fun hmem => ?_⟩
    have hzero := List.eq_of_mem_replicate (List.mem_of_mem_take hmem)
    exact absurd hzero (by decide)
  have hbytes : (x.text ++ 0 :: rest ++ List.replicate 21 0).take 21 = x.ipText ++ ascii ':' ::
      (numeral x.port.toNat ++ 0 :: (rest ++ List.replicate 21 0).take (20 - x.text.length)) := by
    rw [take_text hlen]
    simp [text]
  rw [setText_own hbytes, List.append_assoc, port_atoi]
  · rfl
  · intro e he
    cases he
    rfl
  · rw [List.mem_append, not_or, List.mem_cons, not_or]
    exact ⟨notMem_numeral rfl _, by decide, hcolon'⟩

/-- An address of 21 characters is read on into the memory behind `lacBuffer`. -/
theorem setText_long (hlen : x.text.length = 21) :
    addr.setText (x.text ++ rest) [ascii '0'] = (0, { x.addr with port := x.port * 10 }) := by
  have hbytes : (x.text ++ rest ++ List.replicate 21 0).take 21 =
      x.ipText ++ ascii ':' :: numeral x.port.toNat := by
    rw [List.append_assoc, ← hlen, List.take_left]
    rfl
  have hport := x.port.toNat_lt
  have hdigits : IsNumeral (numeral x.port.toNat ++ [ascii '0']) := by
    refine ⟨by simp, fun e he => ?_⟩
    rcases List.mem_append.mp he with he | he
    · exact (numeral_isNumeral _).2 e he
    · rw [List.mem_singleton.mp he]
      rfl
  have hvalue : value (numeral x.port.toNat ++ [ascii '0']) = x.port.toNat * 10 := by
    unfold value
    rw [List.foldl_concat]
    change value (numeral x.port.toNat) * 10 + 0 = _
    rw [value_numeral, Nat.add_zero]
  have hatoi : atoi (numeral x.port.toNat ++ [ascii '0'] ++ []) =
      Int32.ofInt (value (numeral x.port.toNat ++ [ascii '0'])) :=
    atoi_append hdigits (by simp) (by omega)
  rw [List.append_nil, hvalue, Int32.ofInt_eq_ofNat] at hatoi
  rw [setText_own hbytes (notMem_numeral rfl _), hatoi, Int32.toUInt32_ofNat']
  have hword : (UInt32.ofNat (x.port.toNat * 10)).toUInt16 = x.port * 10 := by
    apply UInt16.toNat_inj.mp
    rw [UInt32.toNat_toUInt16, UInt32.toNat_ofNat', Nat.mod_mod_of_dvd _ (by decide),
      UInt16.toNat_mul]
    rfl
  rw [hword]
  rfl

/-- A short address is read with the wrong port if a `':'` follows two bytes behind it. -/
theorem setText_garbled (hlen : x.text.length ≤ 13) :
    addr.setText (x.text ++ [0, 0, ascii ':']) behind = (0, { x.addr with port := 0 }) := by
  obtain ⟨n, hn⟩ : ∃ n, 20 - x.text.length = n + 3 := ⟨17 - x.text.length, by omega⟩
  have htake : (x.text ++ 0 :: [0, ascii ':'] ++ List.replicate 21 0).take 21 = _ :=
    take_text (by omega)
  have hbytes : (x.text ++ [0, 0, ascii ':'] ++ List.replicate 21 0).take 21 =
      x.ipText ++ ascii ':' ::
        (numeral x.port.toNat ++ 0 :: 0 :: ascii ':' :: List.replicate (n + 1) 0) := by
    rw [htake, hn, text]
    simp only [List.cons_append, List.nil_append, List.take_succ_cons, List.take_replicate,
      List.append_assoc]
    rw [min_eq_left (by omega)]
  have hzeros : ascii ':' ∉ List.replicate (n + 1) (0 : UInt8) := fun hmem =>
    absurd (List.eq_of_mem_replicate hmem) (by decide)
  have hport := notMem_numeral (e := ascii ':') rfl x.port.toNat
  have hlast : lastColon (x.ipText ++ ascii ':' ::
      (numeral x.port.toNat ++ 0 :: 0 :: ascii ':' :: List.replicate (n + 1) 0)) =
      some (x.text.length + 2) := by
    rw [← List.cons_append, ← List.append_assoc]
    change lastColon (x.text ++ _) = _
    rw [lastColon_append]
    simp [lastColon, lastColon_eq_none.mpr hzeros]
  rw [setText_at hbytes hlast (by omega)]
  have hdrop : ((x.ipText ++ ascii ':' ::
      (numeral x.port.toNat ++ 0 :: 0 :: ascii ':' :: List.replicate (n + 1) 0)).map fun c =>
        if c = ascii ':' then 0 else c).drop (x.text.length + 2 + 1) =
      List.replicate (n + 1) 0 := by
    rw [← List.cons_append, ← List.append_assoc]
    change ((x.text ++ _).map _).drop _ = _
    rw [List.map_append, Nat.add_assoc, ← List.length_map (fun c => if c = ascii ':' then 0 else c),
      List.drop_length_add_append, List.map_cons, List.map_cons, List.map_cons, map_cut hzeros]
    rfl
  rw [hdrop]
  rfl

/-- An address with a `':'` behind it is not read if each is far enough. -/
theorem setText_skip (hlen : x.text.length ≤ 20)
    (hcolon : ascii ':' ∈ rest.take (20 - x.text.length))
    (hfar : ∀ j, x.text.length + j < 15 → rest[j]? ≠ some (ascii ':')) :
    addr.setText (x.text ++ 0 :: rest) behind = (-1, addr) := by
  cases hlast : lastColon ((rest ++ List.replicate 21 0).take (20 - x.text.length)) with
  | none =>
    apply absurd _ (lastColon_eq_none.mp hlast)
    rw [List.take_append]
    exact List.mem_append_left _ hcolon
  | some m =>
    have hm : 15 ≤ x.text.length + m := by
      by_contra hnear
      have hget := getElem?_lastColon hlast
      rw [List.getElem?_take, List.getElem?_append] at hget
      split at hget
      · split at hget
        · exact hfar m (Nat.not_le.mp hnear) hget
        · have hzero := List.eq_of_mem_replicate (List.mem_of_getElem? hget)
          exact absurd hzero (by decide)
      · cases hget
    apply setText_stale (k := x.text.length + (m + 1)) _ (by omega)
    rw [take_text hlen, lastColon_append, lastColon, hlast]
    rfl

/-- Where the `':'` of an address is. -/
theorem colon_mem_take {n : Nat} :
    ascii ':' ∈ (x.text ++ rest).take n ↔ x.ipText.length < n := by
  have htext : x.text ++ rest = x.ipText ++ ascii ':' :: (numeral x.port.toNat ++ rest) := by
    simp [text]
  rw [htext, List.take_append, List.mem_append]
  constructor
  · intro h
    by_contra hle
    rw [Nat.sub_eq_zero_of_le (Nat.not_lt.mp hle), List.take_zero] at h
    rcases h with h | h
    · exact colon_notMem_ipText (List.mem_of_mem_take h)
    · exact absurd h List.not_mem_nil
  · intro hlt
    obtain ⟨m, hm⟩ : ∃ m, n - x.ipText.length = m + 1 := ⟨n - x.ipText.length - 1, by omega⟩
    rw [hm, List.take_succ_cons]
    exact Or.inr List.mem_cons_self

end

end DottedAddr

end Netfram
