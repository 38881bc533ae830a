-- SUMMARY: Unicode text in strings, and that it comes out as UTF-8.
import NetworkEtc.Json.Tokens

/-!
# Unicode

A string may have a character as it is, behind a backslash, or as one or two code units in
hexadecimal. However it has its characters, the bytes that are read are their UTF-8.
-/

namespace Json

open Library.Printf

variable {c : Char} {body : List UInt8} {text : List Char}

/-- The characters that stand between the quotes of a string, and the text that they are for. -/
inductive Denotes : List UInt8 → List Char → Prop where
  | nil : Denotes [] []
  | plain {c : Char} {body : List UInt8} {text : List Char} (hquote : c ≠ '"')
    (hbackslash : c ≠ '\\') (h : Denotes body text) :
    Denotes (String.utf8EncodeChar c ++ body) (c :: text)
  | short {e : UInt8} {c : Char} {body : List UInt8} {text : List Char}
    (he : shortEscapes.lookup e = some c.toUInt8) (hc : c.val ≤ 0x7f) (h : Denotes body text) :
    Denotes (ascii '\\' :: e :: body) (c :: text)
  | unit {c : Char} {ds body : List UInt8} {text : List Char} (hds : Hex4 ds c.val)
    (h : Denotes body text) : Denotes (ascii '\\' :: ascii 'u' :: ds ++ body) (c :: text)
  | pair {c : Char} {high low : UInt32} {ds ds' body : List UInt8} {text : List Char}
    (hds : Hex4 ds high) (hds' : Hex4 ds' low) (hhigh : IsHigh high)
    (hlow : 0xDC00 ≤ low.toNat ∧ low.toNat ≤ 0xDFFF)
    (hc : c.val.toNat = 0x10000 + (high.toNat - 0xD800) * 0x400 + (low.toNat - 0xDC00))
    (h : Denotes body text) :
    Denotes (ascii '\\' :: (ascii 'u' :: ds ++ ascii '\\' :: ascii 'u' :: ds') ++ body) (c :: text)

theorem codePointToUTF8_eq (c : Char) : codePointToUTF8 c.val = String.utf8EncodeChar c := by
  have hmax : c.val ≤ 0x10FFFF := by
    have hvalid : c.val.toNat < 0xD800 ∨ 0xDFFF < c.val.toNat ∧ c.val.toNat < 0x110000 := c.valid
    have hbound : (0x10FFFF : UInt32).toNat = 0x10FFFF := rfl
    rw [UInt32.le_iff_toNat_le, hbound]
    omega
  rw [String.utf8EncodeChar_eq_utf8EncodeCharFast]
  unfold codePointToUTF8 String.utf8EncodeCharFast
  dsimp only
  rw [if_pos hmax]
  simp only [UInt32.toUInt8_and, UInt32.toUInt8_or]
  rfl

theorem isHigh_iff {unicode : UInt32} :
    IsHigh unicode ↔ 0xD800 ≤ unicode.toNat ∧ unicode.toNat ≤ 0xDBFF := by
  unfold IsHigh
  rw [UInt32.le_iff_toNat_le, UInt32.le_iff_toNat_le]
  rfl

/-- No character is half of a surrogate pair. -/
theorem not_isHigh (c : Char) : ¬ IsHigh c.val := by
  have hvalid : c.val.toNat < 0xD800 ∨ 0xDFFF < c.val.toNat ∧ c.val.toNat < 0x110000 := c.valid
  rw [isHigh_iff]
  omega

theorem surrogatePair_eq {high low : UInt32} (hhigh : IsHigh high)
    (hlow : 0xDC00 ≤ low.toNat ∧ low.toNat ≤ 0xDFFF)
    (hc : c.val.toNat = 0x10000 + (high.toNat - 0xD800) * 0x400 + (low.toNat - 0xDC00)) :
    surrogatePair high low = c.val := by
  rw [isHigh_iff] at hhigh
  have hhighBits : (high &&& 0x3FF).toNat = high.toNat % 0x400 := by
    rw [UInt32.toNat_and]
    exact Nat.and_two_pow_sub_one_eq_mod high.toNat 10
  have hlowBits : (low &&& 0x3FF).toNat = low.toNat % 0x400 := by
    rw [UInt32.toNat_and]
    exact Nat.and_two_pow_sub_one_eq_mod low.toNat 10
  have hshift : ((high &&& 0x3FF) <<< 10).toNat = high.toNat % 0x400 * 0x400 % 2 ^ 32 := by
    rw [UInt32.toNat_shiftLeft, hhighBits, Nat.shiftLeft_eq]
    rfl
  have hbase : (0x10000 : UInt32).toNat = 0x10000 := rfl
  rw [← UInt32.toNat_inj, hc]
  unfold surrogatePair
  rw [UInt32.toNat_add, UInt32.toNat_add, hshift, hlowBits, hbase]
  omega

-- ---------------------------------------------------------------------------
-- Characters as they are
-- ---------------------------------------------------------------------------

theorem le_or_right (b mask : UInt8) : mask ≤ b ||| mask := by
  rw [UInt8.le_iff_toNat_le, UInt8.toNat_or]
  exact Nat.right_le_or

/-- The bytes of a character are the character itself, or none of them is one of ASCII. -/
theorem utf8EncodeChar_cases (c : Char) :
    (c.val ≤ 0x7f ∧ String.utf8EncodeChar c = [c.toUInt8]) ∨
      ∀ b ∈ String.utf8EncodeChar c, 0x80 ≤ b := by
  rw [String.utf8EncodeChar_eq_utf8EncodeCharFast]
  unfold String.utf8EncodeCharFast
  dsimp only
  have hle {b mask : UInt8} (h : 0x80 ≤ mask) : 0x80 ≤ b ||| mask :=
    UInt8.le_trans h (le_or_right b mask)
  split
  · next hc => exact Or.inl ⟨hc, rfl⟩
  · right
    split
    · exact List.forall_mem_cons.mpr ⟨hle (by decide), List.forall_mem_singleton.mpr (hle (by decide))⟩
    · split <;> simp only [List.forall_mem_cons, List.not_mem_nil, false_imp_iff, implies_true,
        and_true]
      · exact ⟨hle (by decide), hle (by decide), hle (by decide)⟩
      · exact ⟨hle (by decide), hle (by decide), hle (by decide), hle (by decide)⟩

/-- A character is told by its byte. -/
theorem toUInt8_ne {c d : Char} (hc : c.val ≤ 0x7f) (hd : d.val ≤ 0x7f) (hne : c ≠ d) :
    c.toUInt8 ≠ d.toUInt8 := by
  intro heq
  have hbound : (0x7f : UInt32).toNat = 0x7f := rfl
  have hmod : c.val.toNat % 256 = d.val.toNat % 256 := congrArg UInt8.toNat heq
  rw [UInt32.le_iff_toNat_le, hbound] at hc hd
  exact hne (Char.ext (UInt32.toNat_inj.mp (by omega)))

theorem Spells.high {bs s : List UInt8} (hbs : ∀ b ∈ bs, 0x80 ≤ b) (h : Spells body s) :
    Spells (bs ++ body) (bs ++ s) := by
  induction bs with
  | nil => exact h
  | cons b bs ih =>
    obtain ⟨hb, hbs⟩ := List.forall_mem_cons.mp hbs
    refine (ih hbs).plain ?_ ?_ <;> rintro rfl <;> exact absurd hb (by decide)

theorem Spells.char {s : List UInt8} (hquote : c ≠ '"') (hbackslash : c ≠ '\\')
    (h : Spells body s) :
    Spells (String.utf8EncodeChar c ++ body) (String.utf8EncodeChar c ++ s) := by
  rcases utf8EncodeChar_cases c with ⟨hc, heq⟩ | hhigh
  · rw [heq]
    exact h.plain (toUInt8_ne hc (by decide) hquote) (toUInt8_ne hc (by decide) hbackslash)
  · exact h.high hhigh

/-- What denotes a text spells the UTF-8 of this text. -/
theorem Denotes.spells (h : Denotes body text) :
    Spells body (text.flatMap String.utf8EncodeChar) := by
  induction h with
  | nil => exact .nil
  | plain hquote hbackslash _ ih => exact ih.char hquote hbackslash
  | @short e c body text he hc _ ih =>
    have hbytes : String.utf8EncodeChar c = [c.toUInt8] := by
      rw [String.utf8EncodeChar_eq_utf8EncodeCharFast]
      exact if_pos hc
    rw [List.flatMap_cons, hbytes]
    exact .escape (.short he) ih
  | @unit c ds body text hds _ ih =>
    rw [List.flatMap_cons, ← codePointToUTF8_eq]
    exact .escape (.unicode hds (not_isHigh c)) ih
  | @pair c high low ds ds' body text hds hds' hhigh hlow hc _ ih =>
    rw [List.flatMap_cons, ← codePointToUTF8_eq, ← surrogatePair_eq hhigh hlow hc]
    exact .escape (.pair hds hhigh hds') ih

/-- A string that denotes a text is one token, and decodes to the UTF-8 of the text. -/
theorem decodeString_denotes (h : Denotes body text) (rest : List UInt8) :
    let token := readToken (ascii '"' :: (body ++ ascii '"' :: rest))
    token.type = .string ∧ token.stop = rest ∧
      decodeString token = .ok (text.flatMap String.utf8EncodeChar) := by
  have hspells := h.spells
  rw [readToken_quoted hspells.quoted rest]
  exact ⟨rfl, rfl, (decodeString_quoted hspells.quoted rest).mpr hspells⟩

/-- The clef is not in the first plane, and has two code units. -/
theorem decodeString_denotes_clef :
    let body := String.utf8EncodeChar 'é' ++ chars "\\n\\uD834\\uDD1E"
    let token := readToken (ascii '"' :: (body ++ [ascii '"']))
    Denotes body ['é', '\n', '𝄞'] ∧ token.type = .string ∧ token.stop = [] ∧
      decodeString token = .ok (['é', '\n', '𝄞'].flatMap String.utf8EncodeChar) := by
  intro body token
  have hhigh : Hex4 (chars "D834") 0xD834 := ⟨rfl, rfl⟩
  have hlow : Hex4 (chars "DD1E") 0xDD1E := ⟨rfl, rfl⟩
  have hclef : Denotes (chars "\\uD834\\uDD1E") ['𝄞'] :=
    .pair hhigh hlow ⟨by decide, by decide⟩ ⟨by decide, by decide⟩ (by decide) .nil
  have h : Denotes body ['é', '\n', '𝄞'] :=
    .plain (by decide) (by decide) (.short rfl (by decide) hclef)
  exact ⟨h, decodeString_denotes h []⟩

end Json
