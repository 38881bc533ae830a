-- SUMMARY: The ids of peers in text: how they are printed, and how a text is read as an id.
import Mathlib.Data.List.TakeWhile
import NetworkEtc.Netfram.SockAddr

/-!
# `CSockAddr::ID2String` and `CSockAddr::GetID`
-/

namespace Netfram

open Library Library.Decimal Library.Printf

-- ---------------------------------------------------------------------------
-- `inet_addr`
-- ---------------------------------------------------------------------------

/-- The digits of a number in a base up to sixteen. -/
def digitIn (base : Nat) (c : UInt8) : Option Nat :=
  let d := if 48 ≤ c ∧ c ≤ 57 then c.toNat - 48
    else if 97 ≤ c ∧ c ≤ 102 then c.toNat - 87
    else if 65 ≤ c ∧ c ≤ 70 then c.toNat - 55
    else 16
  if d < base then some d else none

def numberIn (base : Nat) (text : List UInt8) : Option Nat :=
  (text.mapM (digitIn base)).map fun ds => ds.foldl (fun n d => base * n + d) 0

/-- A part of the address: hexadecimal behind `0x`, octal behind `0`, or decimal. -/
def part? : List UInt8 → Option Nat
  | 48 :: 120 :: d :: ds => numberIn 16 (d :: ds)
  | 48 :: 88 :: d :: ds => numberIn 16 (d :: ds)
  | 48 :: ds => numberIn 8 ds
  | ds => if IsNumeral ds then some (value ds) else none

/-- `s_addr` of the address with this number in host order. -/
def htonl (n : Nat) : UInt32 :=
  inAddr (UInt8.ofNat (n / 2 ^ 24)) (UInt8.ofNat (n / 2 ^ 16)) (UInt8.ofNat (n / 2 ^ 8))
    (UInt8.ofNat n)

/-- `inet_addr`, up to the first blank; `none` is `INADDR_NONE`. The last part fills the octets that
are left. -/
def inetAddr (text : List UInt8) : Option UInt32 :=
  let text := text.takeWhile fun c => ¬ (c = 32 ∨ (9 ≤ c ∧ c ≤ 13))
  match (text.splitOn (ascii '.')).mapM part? with
  | some [a, b, c, d] =>
    if a < 256 ∧ b < 256 ∧ c < 256 ∧ d < 256 then
      some (htonl (a * 2 ^ 24 + b * 2 ^ 16 + c * 2 ^ 8 + d))
    else none
  | some [a, b, c] =>
    if a < 256 ∧ b < 256 ∧ c < 2 ^ 16 then some (htonl (a * 2 ^ 24 + b * 2 ^ 16 + c)) else none
  | some [a, b] => if a < 256 ∧ b < 2 ^ 24 then some (htonl (a * 2 ^ 24 + b)) else none
  | some [a] => if a < 2 ^ 32 then some (htonl a) else none
  | _ => none

/-- `INADDR_NONE` -/
def inaddrNone : UInt32 := 0xffffffff

-- ---------------------------------------------------------------------------
-- The ids
-- ---------------------------------------------------------------------------

/-- `Ip2ID`, with the resolver of the system. -/
def ip2ID (gethostbyname : List UInt8 → Option UInt32) (apcIP : List UInt8) : UInt32 :=
  let luID := (inetAddr apcIP).getD inaddrNone
  if luID = inaddrNone then (gethostbyname apcIP).getD 0 else luID

/-- The bytes of an `s_addr`, as they stand in memory. -/
def octets (ip : UInt32) : List UInt8 :=
  [ip.toUInt8, (ip >>> 8).toUInt8, (ip >>> 16).toUInt8, (ip >>> 24).toUInt8]

/-- `ID2String` -/
def id2String (au64ID : UInt64) : List UInt8 :=
  let lu32IP := (au64ID &&& 0xffffffff).toUInt32
  let liPort := (au64ID >>> 32) &&& 0xffff
  let text := [ascii '.'].intercalate ((octets lu32IP).map fun octet => numeral octet.toNat)
  if 0 < liPort then text ++ ascii ':' :: numeral liPort.toNat else text

/-- `GetID(ip, aiPort)`. `lu64ID` is made of the port that is given, before the text is looked at;
the port of the text goes to `aiPort`, which is not used any more. -/
def getIDText (gethostbyname : List UInt8 → Option UInt32) (ip : List UInt8) (aiPort : Int32) :
    UInt64 :=
  let lu64ID := aiPort.toInt64.toUInt64
  let (lu32IP, _aiPort) :=
    match ip.idxOf? (ascii ':') with
    | some (len + 1) =>
      (ip2ID gethostbyname (ip.take (min (len + 1) 64)), atoi (ip.drop (len + 2)))
    | _ => (ip2ID gethostbyname ip, aiPort)
  if lu32IP = 0 then 0 else (lu64ID <<< 32) ||| lu32IP.toUInt64

theorem toNat_getID (addr : SockAddr) :
    addr.getID.toNat = addr.port.toNat * 2 ^ 32 + addr.ip.toNat := by
  have hip := addr.ip.toNat_lt
  have hport := addr.port.toNat_lt
  have hshift : (addr.port.toUInt64 <<< 32).toNat = addr.port.toNat <<< 32 := by
    rw [UInt64.toNat_shiftLeft, UInt16.toNat_toUInt64]
    apply Nat.mod_eq_of_lt
    rw [Nat.shiftLeft_eq]
    simp
    omega
  rw [SockAddr.getID, UInt64.toNat_or, hshift, UInt32.toNat_toUInt64,
    ← Nat.shiftLeft_add_eq_or_of_lt hip, Nat.shiftLeft_eq]

theorem getID_toUInt32 (addr : SockAddr) : (addr.getID &&& 0xffffffff).toUInt32 = addr.ip := by
  have hip := addr.ip.toNat_lt
  apply UInt32.toNat_inj.mp
  rw [UInt64.toNat_toUInt32, UInt64.toNat_and, toNat_getID]
  have hmask : (0xffffffff : UInt64).toNat = 2 ^ 32 - 1 := rfl
  rw [hmask, Nat.and_two_pow_sub_one_eq_mod]
  omega

theorem getID_port (addr : SockAddr) :
    ((addr.getID >>> 32) &&& 0xffff).toNat = addr.port.toNat := by
  have hip := addr.ip.toNat_lt
  have hport := addr.port.toNat_lt
  have hmask : (0xffff : UInt64).toNat = 2 ^ 16 - 1 := rfl
  have hshift : (32 : UInt64).toNat % 64 = 32 := rfl
  rw [UInt64.toNat_and, UInt64.toNat_shiftRight, toNat_getID, hmask,
    Nat.and_two_pow_sub_one_eq_mod, hshift, Nat.shiftRight_eq_div_pow]
  omega

theorem part?_numeral (n : Nat) : part? (numeral n) = some n := by
  by_cases hn : n = 0
  · rw [hn]
    rfl
  · have hhead := head?_numeral hn
    have hdecimal : (if IsNumeral (numeral n) then some (value (numeral n)) else none) =
        some n := by
      rw [if_pos (numeral_isNumeral n), value_numeral]
    unfold part?
    split
    · next heq => exact absurd (congrArg List.head? heq) hhead
    · next heq => exact absurd (congrArg List.head? heq) hhead
    · next heq => exact absurd (congrArg List.head? heq) hhead
    · exact hdecimal

theorem htonl_octets (a b c d : UInt8) :
    htonl (a.toNat * 2 ^ 24 + b.toNat * 2 ^ 16 + c.toNat * 2 ^ 8 + d.toNat) = inAddr a b c d := by
  have ha := a.toNat_lt
  have hb := b.toNat_lt
  have hc := c.toNat_lt
  have hd := d.toNat_lt
  have hoctet : ∀ (e : UInt8) (n : Nat), n % 256 = e.toNat → UInt8.ofNat n = e := by
    intro e n hn
    apply UInt8.toNat_inj.mp
    rw [UInt8.toNat_ofNat']
    exact hn
  unfold htonl
  rw [hoctet a _ (by omega), hoctet b _ (by omega), hoctet c _ (by omega), hoctet d _ (by omega)]

theorem inetAddr_ipText (x : DottedAddr) :
    inetAddr x.ipText = some (inAddr x.a x.b x.c x.d) := by
  have hblanks : x.ipText.takeWhile (fun c => ¬ (c = 32 ∨ (9 ≤ c ∧ c ≤ 13))) = x.ipText := by
    refine List.takeWhile_eq_self_iff.mpr fun c hc => ?_
    rcases DottedAddr.mem_ipText hc with hdigit | rfl
    · rw [isDigit_iff] at hdigit
      rw [decide_eq_true_eq, ← UInt8.toNat_inj, UInt8.le_iff_toNat_le, UInt8.le_iff_toNat_le]
      change ¬ (c.toNat = 32 ∨ (9 ≤ c.toNat ∧ c.toNat ≤ 13))
      omega
    · decide
  have hsplit : (x.ipText.splitOn (ascii '.')).mapM part? =
      some [x.a.toNat, x.b.toNat, x.c.toNat, x.d.toNat] := by
    unfold DottedAddr.ipText
    rw [List.splitOn_intercalate]
    · simp [part?_numeral]
    · intro l hl
      simp only [List.mem_cons, List.not_mem_nil, or_false] at hl
      rcases hl with rfl | rfl | rfl | rfl <;> exact DottedAddr.notMem_numeral rfl _
    · simp
  unfold inetAddr
  simp only [hblanks, hsplit]
  rw [if_pos ⟨x.a.toNat_lt, x.b.toNat_lt, x.c.toNat_lt, x.d.toNat_lt⟩, htonl_octets]

theorem toNat_inAddr (a b c d : UInt8) : (inAddr a b c d).toNat =
    d.toNat * 2 ^ 24 + (c.toNat * 2 ^ 16 + (b.toNat * 2 ^ 8 + a.toNat)) := by
  have ha := a.toNat_lt
  have hb := b.toNat_lt
  have hc := c.toNat_lt
  have hd := d.toNat_lt
  have hshift : ∀ (e : UInt8) (k : Nat) (s : UInt32), s.toNat % 32 = k → k ≤ 24 →
      (e.toUInt32 <<< s).toNat = e.toNat <<< k := by
    intro e k s hs hk
    have he := e.toNat_lt
    have hpow : 2 ^ k ≤ 2 ^ 24 := Nat.pow_le_pow_right (by decide) hk
    rw [UInt32.toNat_shiftLeft, UInt8.toNat_toUInt32, hs]
    apply Nat.mod_eq_of_lt
    rw [Nat.shiftLeft_eq]
    calc e.toNat * 2 ^ k ≤ 255 * 2 ^ 24 := Nat.mul_le_mul (Nat.le_of_lt_succ he) hpow
      _ < 2 ^ 32 := by decide
  have hor : ∀ x y k : Nat, x < 2 ^ k → x ||| y <<< k = y * 2 ^ k + x := by
    intro x y k hx
    rw [Nat.or_comm, ← Nat.shiftLeft_add_eq_or_of_lt hx, Nat.shiftLeft_eq]
  rw [inAddr, UInt32.toNat_or, UInt32.toNat_or, UInt32.toNat_or, UInt8.toNat_toUInt32,
    hshift b 8 8 rfl (by decide), hshift c 16 16 rfl (by decide), hshift d 24 24 rfl (by decide),
    hor _ _ 8 (by omega), hor _ _ 16 (by omega), hor _ _ 24 (by omega)]

theorem inAddr_octets (ip : UInt32) :
    inAddr ip.toUInt8 (ip >>> 8).toUInt8 (ip >>> 16).toUInt8 (ip >>> 24).toUInt8 = ip := by
  have hlt := ip.toNat_lt
  have hshift : ∀ (k : Nat) (s : UInt32), s.toNat % 32 = k →
      (ip >>> s).toUInt8.toNat = ip.toNat / 2 ^ k % 256 := by
    intro k s hs
    rw [UInt32.toNat_toUInt8, UInt32.toNat_shiftRight, hs, Nat.shiftRight_eq_div_pow]
  apply UInt32.toNat_inj.mp
  rw [toNat_inAddr, hshift 8 8 rfl, hshift 16 16 rfl, hshift 24 24 rfl, UInt32.toNat_toUInt8]
  omega

section

variable {gethostbyname : List UInt8 → Option UInt32} {addr : SockAddr}

/-- An id that is read with the port zero has no port. -/
theorem getIDText_zero_shift (text : List UInt8) : getIDText gethostbyname text 0 >>> 32 = 0 := by
  have hlow : ∀ ip : UInt32,
      (if ip = 0 then (0 : UInt64)
        else (Int32.toInt64 0).toUInt64 <<< 32 ||| ip.toUInt64) >>> 32 = 0 := by
    intro ip
    split
    · rfl
    · apply UInt64.toBitVec_inj.mp
      ext i hi
      simp
  exact hlow _

/-- The address that `ID2String` prints. -/
def dotted (addr : SockAddr) (hport : addr.port ≠ 0) : DottedAddr :=
  ⟨addr.ip.toUInt8, (addr.ip >>> 8).toUInt8, (addr.ip >>> 16).toUInt8, (addr.ip >>> 24).toUInt8,
    addr.port, hport⟩

theorem id2String_getID (hport : addr.port ≠ 0) :
    id2String addr.getID = (dotted addr hport).text := by
  have hpos : (0 : UInt64) < (addr.getID >>> 32) &&& 0xffff := by
    rw [UInt64.lt_iff_toNat_lt, getID_port]
    exact Nat.pos_of_ne_zero fun hzero => hport (UInt16.toNat_inj.mp hzero)
  unfold id2String
  simp only [getID_toUInt32]
  rw [if_pos hpos, getID_port]
  rfl

/-- A text with a port is read up to the `':'`, with the port that is given. -/
theorem getIDText_append {text rest : List UInt8} (hcolon : ascii ':' ∉ text) (hne : text ≠ [])
    (hlen : text.length ≤ 64) (aiPort : Int32) :
    getIDText gethostbyname (text ++ ascii ':' :: rest) aiPort =
      if ip2ID gethostbyname text = 0 then (0 : UInt64)
      else aiPort.toInt64.toUInt64 <<< 32 ||| (ip2ID gethostbyname text).toUInt64 := by
  obtain ⟨c, tail, rfl⟩ := List.exists_cons_of_ne_nil hne
  have hmin : min (tail.length + 1) 64 = (c :: tail).length := Nat.min_eq_left hlen
  unfold getIDText
  rw [idxOf?_append hcolon, List.length_cons]
  simp only [hmin, List.take_left]

/-- What the id of a peer comes back as. -/
theorem getIDText_id2String (hport : addr.port ≠ 0) (hzero : addr.ip ≠ 0)
    (hnone : addr.ip ≠ inaddrNone) :
    getIDText gethostbyname (id2String addr.getID) 0 = addr.ip.toUInt64 := by
  rw [id2String_getID hport]
  have hip : inetAddr (dotted addr hport).ipText = some addr.ip :=
    (inetAddr_ipText _).trans (congrArg some (inAddr_octets addr.ip))
  have hid : ip2ID gethostbyname (dotted addr hport).ipText = addr.ip := by
    rw [ip2ID, hip, Option.getD_some]
    exact if_neg hnone
  have hlen := DottedAddr.length_ipText (x := dotted addr hport)
  have hne : (dotted addr hport).ipText ≠ [] := List.ne_nil_of_length_pos (by omega)
  rw [DottedAddr.text, getIDText_append DottedAddr.colon_notMem_ipText hne (by omega), hid,
    if_neg hzero]
  exact UInt64.zero_or

/-- No id of a peer comes back: the port is lost. -/
theorem getIDText_id2String_ne (hport : addr.port ≠ 0) :
    getIDText gethostbyname (id2String addr.getID) 0 ≠ addr.getID := by
  intro heq
  have hid := getID_port addr
  rw [← heq, getIDText_zero_shift] at hid
  exact hport (UInt16.toNat_inj.mp hid.symm)

/-- `10.0.100.89:80` -/
def peer : SockAddr := ⟨0x5964000a, 80⟩

theorem getIDText_peer : getIDText (fun _ => none) (id2String peer.getID) 0 = 0x5964000a ∧
    0x5964000a ≠ peer.getID :=
  ⟨getIDText_id2String (by decide) (by decide) (by decide), by decide⟩

theorem getIDText_id2String_ne_peer : peer.port ≠ 0 ∧
    getIDText (fun _ => none) (id2String peer.getID) 0 ≠ peer.getID :=
  ⟨by decide, getIDText_id2String_ne (by decide)⟩

end

end Netfram
