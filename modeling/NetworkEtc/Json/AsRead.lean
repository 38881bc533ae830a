-- SUMMARY: What the reader makes of a document, whatever it is.
import NetworkEtc.Json.Numbers

/-!
# What is read

The values that come out of the reader: they are not nested too deep, the names of an object are in
order, and a number is an `Int` if it can be.
-/

namespace Json

open Library Library.Printf Library.Decimal

variable {δ : Type} {features : Features} {reals : Reals δ} {P : Value δ → Prop}
  {read : List UInt8 → Except Failure (Value δ × List UInt8)} {current rest text name : List UInt8}
  {token : Token} {value : UInt64} {v root : Value δ} {n room : Nat}

/-- How the reader has numbers and objects. -/
def AsRead : Value δ → Prop
  | .int value => value ≤ maxInt.toInt64
  | .uint value => maxInt < value
  | .object members => OrderedMap.Sorted members
  | _ => True

-- ---------------------------------------------------------------------------
-- Numbers
-- ---------------------------------------------------------------------------

theorem toInt_maxInt : maxInt.toInt64.toBitVec.toInt = 0x7FFFFFFF := rfl

/-- The number behind a minus sign is none above zero. -/
theorem neg_toInt64_le (h : value ≤ 0x8000000000000000) : -value.toInt64 ≤ maxInt.toInt64 := by
  have hneg : (-value.toInt64).toBitVec.toNat = (2 ^ 64 - value.toNat) % 2 ^ 64 :=
    BitVec.toNat_neg value.toBitVec
  have hle : value.toNat ≤ 2 ^ 63 := UInt64.le_iff_toNat_le.mp h
  refine Int64.le_iff_toInt_le.mpr (le_of_le_of_eq ?_ toInt_maxInt.symm)
  unfold Int64.toInt
  rw [BitVec.toInt_eq_toNat_cond, hneg]
  split <;> omega

theorem toInt64_le (h : value ≤ maxInt) : value.toInt64 ≤ maxInt.toInt64 := by
  have hle : value.toInt64.toBitVec.toNat ≤ 0x7FFFFFFF := UInt64.le_iff_toNat_le.mp h
  refine Int64.le_iff_toInt_le.mpr (le_of_le_of_eq ?_ toInt_maxInt.symm)
  unfold Int64.toInt
  rw [BitVec.toInt_eq_toNat_cond]
  split <;> omega

theorem ofInt64_of_le {value : Int64} (h : value ≤ maxInt.toInt64) :
    (ofInt64 value : Value δ) = .int value := by
  unfold ofInt64
  split
  · rfl
  · next hnonneg =>
    have hle : value.toBitVec.toInt ≤ 0x7FFFFFFF :=
      (Int64.le_iff_toInt_le.mp h).trans_eq toInt_maxInt
    have hge : ¬ value.toBitVec.toInt < 0 := fun hlt => hnonneg (Int64.lt_iff_toInt_lt.mpr hlt)
    have hsmall : value.toUInt64 ≤ maxInt := by
      have hmax : maxInt.toNat = 0x7FFFFFFF := rfl
      rw [UInt64.le_iff_toNat_le, hmax]
      change value.toBitVec.toNat ≤ _
      rw [BitVec.toInt_eq_toNat_cond] at hle hge
      split at hle <;> omega
    unfold ofUInt64
    rw [if_pos hsmall, Int64.toInt64_toUInt64]

theorem ofUInt64_of_lt (h : maxInt < value) : (ofUInt64 value : Value δ) = .uint value :=
  if_neg (UInt64.not_le.mpr h)

theorem asRead_decodeInteger (h : decodeInteger text = some v) : v.All AsRead ∧ v.height = 1 := by
  unfold decodeInteger at h
  obtain ⟨value, hvalue, heq⟩ := Option.map_eq_some_iff.mp h
  split at heq
  · next hminus =>
    rw [if_pos hminus, if_pos hminus] at hvalue
    subst heq
    exact ⟨neg_toInt64_le ((of_decodeDigits UInt64.zero_le hvalue).2.2), rfl⟩
  · split at heq
    · next hle =>
      subst heq
      exact ⟨toInt64_le hle, rfl⟩
    · next hgt =>
      subst heq
      exact ⟨UInt64.not_le.mp hgt, rfl⟩

theorem asRead_decodeNumber (h : decodeNumber reals token = .ok v) :
    v.All AsRead ∧ v.height = 1 := by
  unfold decodeNumber decodeDouble at h
  split at h
  · next hinteger =>
    cases h
    exact asRead_decodeInteger hinteger
  · split at h
    · cases h
    · cases h
      exact ⟨trivial, rfl⟩

-- ---------------------------------------------------------------------------
-- Arrays and objects
-- ---------------------------------------------------------------------------

theorem readElements_all (hread : ∀ {current v rest}, read current = .ok (v, rest) → P v)
    {elements : List (Value δ)} (helements : ∀ v ∈ elements, P v)
    (h : readElements read n elements current = .ok (v, rest)) :
    ∃ elements, v = .array elements ∧ ∀ v ∈ elements, P v := by
  induction n generalizing elements current with
  | zero => cases h
  | succ n ih =>
    rw [readElements] at h
    split at h
    · cases h
    · next value current hvalue =>
      have hnext : ∀ v ∈ elements ++ [value], P v :=
        List.forall_mem_append.mpr ⟨helements, List.forall_mem_singleton.mpr (hread hvalue)⟩
      dsimp only at h
      split at h
      · cases h
      · split at h
        · cases h
          exact ⟨_, rfl, hnext⟩
        · exact ih hnext h

theorem readArray_all (hread : ∀ {current v rest}, read current = .ok (v, rest) → P v)
    (h : readArray read token = .ok (v, rest)) :
    ∃ elements, v = .array elements ∧ ∀ v ∈ elements, P v := by
  unfold readArray at h
  dsimp only at h
  split at h
  · cases h
    exact ⟨[], rfl, List.forall_mem_nil _⟩
  · exact readElements_all hread (List.forall_mem_nil _) h

theorem readMembers_all (hread : ∀ {current v rest}, read current = .ok (v, rest) → P v)
    {members : List (List UInt8 × Value δ)} (hsorted : OrderedMap.Sorted members)
    (hmembers : ∀ m ∈ members, P m.2)
    (h : readMembers read features reals n name members current = .ok (v, rest)) :
    ∃ members, v = .object members ∧ OrderedMap.Sorted members ∧ ∀ m ∈ members, P m.2 := by
  induction n generalizing name members current with
  | zero => cases h
  | succ n ih =>
    rw [readMembers] at h
    dsimp only at h
    split at h
    · cases h
      exact ⟨members, rfl, hsorted, hmembers⟩
    · split at h
      · cases h
      · next name _ =>
        split at h
        · cases h
        · split at h
          · cases h
          · next value current hvalue =>
            have hnext : ∀ m ∈ OrderedMap.set name value members, P m.2 := by
              intro m hm
              rcases OrderedMap.mem_set hm with rfl | hm
              · exact hread hvalue
              · exact hmembers m hm
            split at h
            · cases h
            · generalize (if (readToken current).type = .comment then
                readTokenPastComments (readToken current).stop else readToken current) = comma at h
              split at h
              · cases h
                exact ⟨_, rfl, hsorted.set, hnext⟩
              · exact ih hsorted.set hnext h

theorem readValue_asRead (h : readValue features reals room current = .ok (v, rest)) :
    v.All AsRead ∧ v.height ≤ room := by
  induction room generalizing current v rest with
  | zero => cases h
  | succ room ih =>
    have hroom : 1 ≤ room + 1 := Nat.le_add_left 1 room
    rw [readValue] at h
    split at h
    · obtain ⟨members, rfl, hsorted, hmembers⟩ :=
        readMembers_all (P := fun v => v.All AsRead ∧ v.height ≤ room) ih List.Pairwise.nil
          (List.forall_mem_nil _) h
      exact ⟨⟨hsorted, Value.allMembers_iff.mpr fun m hm => (hmembers m hm).1⟩,
        Nat.succ_le_succ (Value.heightOfMembers_le.mpr fun m hm => (hmembers m hm).2)⟩
    · obtain ⟨elements, rfl, helements⟩ :=
        readArray_all (P := fun v => v.All AsRead ∧ v.height ≤ room) ih h
      exact ⟨⟨trivial, Value.allElements_iff.mpr fun v hv => (helements v hv).1⟩,
        Nat.succ_le_succ (Value.heightOfElements_le.mpr fun v hv => (helements v hv).2)⟩
    · obtain ⟨value, hvalue, heq⟩ := map_eq_ok.mp h
      cases heq
      obtain ⟨hall, hheight⟩ := asRead_decodeNumber hvalue
      exact ⟨hall, hheight.trans_le hroom⟩
    · obtain ⟨value, -, heq⟩ := map_eq_ok.mp h
      cases heq
      exact ⟨trivial, hroom⟩
    case h_5 | h_6 | h_7 =>
      cases h
      exact ⟨trivial, hroom⟩
    case h_8 | h_9 | h_10 =>
      -- a value that is left out
      split at h
      · cases h
        exact ⟨trivial, hroom⟩
      · cases h
    · cases h

theorem parse_asRead {document : List UInt8} (h : parse features reals root document = .ok v) :
    v.All AsRead ∧ v.height ≤ stackLimit ∧
      (features.strictRoot = true → v.isArray = true ∨ v.isObject = true) := by
  unfold parse at h
  dsimp only at h
  split at h
  · split at h <;> cases h
  · cases h
  · next value rest hread =>
    split at h
    · cases h
    · next hroot =>
      cases h
      obtain ⟨hall, hheight⟩ := readValue_asRead hread
      refine ⟨hall, hheight, fun hstrict => ?_⟩
      by_contra hnot
      obtain ⟨harray, hobject⟩ := not_or.mp hnot
      exact hroot ⟨hstrict, Bool.eq_false_iff.mpr harray, Bool.eq_false_iff.mpr hobject⟩

-- ---------------------------------------------------------------------------
-- Names
-- ---------------------------------------------------------------------------

theorem sorted_ofMembers (ms : List (List UInt8 × Value δ)) : OrderedMap.Sorted (ofMembers ms) :=
  OrderedMap.sorted_foldl_set List.Pairwise.nil

theorem lookup_ofMembers (ms : List (List UInt8 × Value δ)) (name : List UInt8) :
    (ofMembers ms).lookup name = ms.reverse.lookup name :=
  (OrderedMap.lookup_foldl_set [] name).trans (Option.or_none)

/-- The value of a name is that of the last member with this name. -/
theorem parse_members {d : Nat} {ms : List (List UInt8 × Value δ)} {ts : List UInt8}
    (h : Members features reals d ms ts) (hdeep : d < stackLimit) (root : Value δ) :
    ∃ members, parse features reals root (ascii '{' :: (ts ++ [ascii '}'])) = .ok (.object members) ∧
      OrderedMap.Sorted members ∧ ∀ name, members.lookup name = ms.reverse.lookup name := by
  have hends : Ends [] := rfl
  have hread : readValue features reals stackLimit (ascii '{' :: (ts ++ [ascii '}']) ++ []) = _ :=
    readValue_text (.object h) hends
  rw [List.append_nil] at hread
  have hparse := parse_of_readValue hread (fun _ => Or.inr rfl) root
  exact ⟨ofMembers ms, hparse.trans (if_pos hdeep), sorted_ofMembers ms, lookup_ofMembers ms⟩

theorem parse_members_twice :
    let ms : List (List UInt8 × Value Unit) := [(chars "a", .boolean true), (chars "a", .null)]
    ∃ members, parse .all .half .null
        (ascii '{' :: (chars "\"a\":true,\"a\":null" ++ [ascii '}'])) = .ok (.object members) ∧
      OrderedMap.Sorted members ∧ ∀ name, members.lookup name = ms.reverse.lookup name := by
  intro ms
  have hbody : Spells (chars "a") (chars "a") := .plain (by decide) (by decide) .nil
  have hblank : Blank [] := List.forall_mem_nil _
  have hname : NameText .all Reals.half (chars "a") (chars "\"a\":") := .string .nil hbody hblank
  have h : Members .all .half 1 ms (chars "\"a\":true,\"a\":null") :=
    .cons hname .nil (.boolean true) .nil (.last hname .nil .null .nil)
  exact parse_members h (by decide) .null

end Json
