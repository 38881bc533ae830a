-- SUMMARY: The object that collects the responses to a request, without those of excepted codes.
import Mathlib.Algebra.Group.Nat.Defs
import Mathlib.Data.Finset.Basic
import Mathlib.Data.List.ReduceOption

/-!
# `CWaitObject`

The packets are kept nowhere, in `mpoResp` or in `mpoRespList`, by how many there are.
-/

namespace Netfram

abbrev CodeType := Int32

/-- `NULL_PCODE` -/
def nullPCode : CodeType := -1

/-- `CPasePacket` -/
structure CPasePacket where
  ii : Int32
  deriving DecidableEq

/-- `getPCode`, which is no virtual function. -/
def CPasePacket.getPCode (_ : CPasePacket) : CodeType := 0

/-- What a `CWaitObject` is made of. -/
inductive CWaitObject.Given where
  | none
  | code (aExecptCode : CodeType)
  | set (except_set : Finset CodeType)
  /-- A command with its callback. -/
  | cmd (aiCmd : Int32)

/-- The fields that the packets depend on, and the command. A pointer that is `NULL` is `none`. -/
structure CWaitObject (ρ : Type) where
  miExceptCode_set : Finset CodeType
  miExceptCode : CodeType
  mpoResp : Option ρ
  mpoRespList : Option (List ρ)
  miDownCount : Int32
  miCmd : Int32

namespace CWaitObject

variable {ρ : Type}

/-- `Init` -/
def initialise (object : CWaitObject ρ) : CWaitObject ρ :=
  { object with
    miDownCount := 0
    mpoResp := none
    mpoRespList := none
    miExceptCode := nullPCode
    miCmd := 0 }

/-- The constructors. The fields are initialised, where they are, before `Init` runs; `stale` is
what the memory held. -/
def create (stale : CWaitObject ρ) : Given → CWaitObject ρ
  | .none => { stale with miExceptCode_set := ∅ }.initialise
  | .code aExecptCode =>
    { stale with miExceptCode_set := ∅, miExceptCode := aExecptCode }.initialise
  | .set except_set => { stale with miExceptCode_set := except_set }.initialise
  | .cmd aiCmd => { { stale with miExceptCode_set := ∅ }.initialise with miCmd := aiCmd }

/-- `Done` -/
def done (object : CWaitObject ρ) : CWaitObject ρ :=
  { object with miDownCount := object.miDownCount + 1 }

/-- `InsertPacket`, of packets with a code. -/
def insertPacket (getPCode : ρ → CodeType) (object : CWaitObject ρ) :
    Option ρ → Bool × CWaitObject ρ
  | none => (true, object.done)
  | some apoPack =>
    if object.miExceptCode ≠ nullPCode ∧ object.miExceptCode = getPCode apoPack then
      (false, object)
    else if object.miExceptCode_set ≠ ∅ ∧ getPCode apoPack ∈ object.miExceptCode_set then
      (false, object)
    else
      match object.mpoRespList, object.mpoResp with
      | some mpoRespList, _ =>
        (true, { object with mpoRespList := some (mpoRespList ++ [apoPack]) }.done)
      | none, some mpoResp =>
        (true, { object with mpoRespList := some [mpoResp, apoPack], mpoResp := none }.done)
      | none, none => (true, { object with mpoResp := some apoPack }.done)

/-- An `int` as the `size_t` that an index is. -/
def sizeOfIndex (index : Int32) : Nat := index.toInt64.toUInt64.toNat

/-- `get_packet` -/
def getPacket (object : CWaitObject ρ) (index : Int32) : Option ρ :=
  match object.mpoRespList with
  | some mpoRespList => mpoRespList[sizeOfIndex index]?
  | none => object.mpoResp

/-- `GetPackCount` -/
def getPackCount (object : CWaitObject ρ) : Int32 :=
  match object.mpoRespList, object.mpoResp with
  | some mpoRespList, _ => Int32.ofNat mpoRespList.length
  | none, some _ => 1
  | none, none => 0

-- ---------------------------------------------------------------------------
-- The collection
-- ---------------------------------------------------------------------------

/-- The packets that are held, in order. -/
def packets (object : CWaitObject ρ) : List ρ := object.mpoRespList.getD object.mpoResp.toList

/-- The codes that are to be left out. -/
def Given.excepted : Given → Finset CodeType
  | .code aExecptCode => {aExecptCode}
  | .set except_set => except_set
  | .none | .cmd _ => ∅

section

variable (getPCode : ρ → CodeType) (stale : CWaitObject ρ) (given : Given)
  (packs : List (Option ρ))

/-- The object after these packets, and `NULL`s, have been inserted. -/
def collect (object : CWaitObject ρ) : CWaitObject ρ :=
  packs.foldl (fun object apoPack => (object.insertPacket getPCode apoPack).2) object

/-- The packets that are to be kept. -/
def kept : List ρ := packs.reduceOption.filter fun pack => getPCode pack ∉ given.excepted

/-- The object holds the packets that are to be kept, counts them, and gives each at its index. -/
def Collects : Prop :=
  let object := collect getPCode packs (create stale given)
  let kept := kept getPCode given packs
  object.packets = kept ∧ object.getPackCount.toInt = kept.length ∧
    ∀ index : Int32, 0 ≤ index → object.getPacket index = kept[index.toInt.toNat]?

end

variable {getPCode : ρ → CodeType} {object stale : CWaitObject ρ} {given : Given}
  {packs : List (Option ρ)} {pack : ρ}

/-- What is left out by an object. -/
def Excludes (getPCode : ρ → CodeType) (object : CWaitObject ρ) (pack : ρ) : Prop :=
  object.miExceptCode ≠ nullPCode ∧ object.miExceptCode = getPCode pack ∨
    getPCode pack ∈ object.miExceptCode_set

instance : DecidablePred (object.Excludes getPCode) :=
  fun _ => inferInstanceAs (Decidable (_ ∨ _))

/-- A list holds two packets at least. -/
def Shaped (object : CWaitObject ρ) : Prop := ∀ l, object.mpoRespList = some l → 2 ≤ l.length

theorem insertPacket_codes (getPCode : ρ → CodeType) (object : CWaitObject ρ) (apoPack : Option ρ) :
    (object.insertPacket getPCode apoPack).2.miExceptCode = object.miExceptCode ∧
      (object.insertPacket getPCode apoPack).2.miExceptCode_set = object.miExceptCode_set := by
  cases apoPack with
  | none => exact ⟨rfl, rfl⟩
  | some pack =>
    simp only [insertPacket]
    split
    · exact ⟨rfl, rfl⟩
    · split
      · exact ⟨rfl, rfl⟩
      · split <;> exact ⟨rfl, rfl⟩

/-- A packet is put at the end, if it is not left out. -/
theorem insertPacket_some (object : CWaitObject ρ) (pack : ρ) :
    (object.insertPacket getPCode (some pack)).2.packets =
      if object.Excludes getPCode pack then object.packets else object.packets ++ [pack] := by
  have hset : (object.miExceptCode_set ≠ ∅ ∧ getPCode pack ∈ object.miExceptCode_set) ↔
      getPCode pack ∈ object.miExceptCode_set :=
    ⟨And.right, fun hmem => ⟨Finset.ne_empty_of_mem hmem, hmem⟩⟩
  simp only [insertPacket, hset]
  by_cases hcode : object.miExceptCode ≠ nullPCode ∧ object.miExceptCode = getPCode pack
  · have hex : object.Excludes getPCode pack := Or.inl hcode
    rw [if_pos hcode, if_pos hex]
  · rw [if_neg hcode]
    by_cases hmem : getPCode pack ∈ object.miExceptCode_set
    · have hex : object.Excludes getPCode pack := Or.inr hmem
      rw [if_pos hmem, if_pos hex]
    · have hex : ¬ object.Excludes getPCode pack := not_or_intro hcode hmem
      rw [if_neg hmem, if_neg hex]
      split
      · next heq => simp [packets, done, heq]
      · next heq heq' => simp [packets, done, heq, heq']
      · next heq heq' => simp [packets, done, heq, heq']

theorem insertPacket_shaped (h : object.Shaped) (apoPack : Option ρ) :
    (object.insertPacket getPCode apoPack).2.Shaped := by
  cases apoPack with
  | none => exact h
  | some pack =>
    simp only [insertPacket]
    split
    · exact h
    · split
      · exact h
      · split
        · next mpoRespList heq =>
          intro l hl
          cases hl
          have hlen := h mpoRespList heq
          rw [List.length_append]
          omega
        · intro l hl
          cases hl
          exact Nat.le_refl 2
        · next heq _ =>
          intro l hl
          exact h l hl

theorem collect_packets (packs : List (Option ρ)) (object : CWaitObject ρ) :
    (collect getPCode packs object).packets =
      object.packets ++ packs.reduceOption.filter fun pack => ¬ object.Excludes getPCode pack := by
  induction packs generalizing object with
  | nil => simp [collect, List.reduceOption_nil]
  | cons apoPack packs ih =>
    have hstep : collect getPCode (apoPack :: packs) object =
      collect getPCode packs (object.insertPacket getPCode apoPack).2 := rfl
    obtain ⟨hcode, hset⟩ := insertPacket_codes getPCode object apoPack
    have hsame : ∀ pack, (object.insertPacket getPCode apoPack).2.Excludes getPCode pack ↔
        object.Excludes getPCode pack := by
      intro pack
      rw [Excludes, Excludes, hcode, hset]
    rw [hstep, ih]
    simp only [hsame]
    cases apoPack with
    | none => rw [List.reduceOption_cons_of_none]; rfl
    | some pack =>
      rw [insertPacket_some, List.reduceOption_cons_of_some, List.filter_cons]
      by_cases hex : object.Excludes getPCode pack
      · rw [if_pos hex, if_neg (by simpa using hex)]
      · rw [if_neg hex, if_pos (by simpa using hex), List.append_assoc, List.singleton_append]

theorem collect_shaped (getPCode : ρ → CodeType) (h : object.Shaped) (packs : List (Option ρ)) :
    (collect getPCode packs object).Shaped := by
  induction packs generalizing object with
  | nil => exact h
  | cons apoPack packs ih => exact ih (insertPacket_shaped h apoPack)

/-- `Init` takes away the code that the object has been made of. -/
theorem excludes_create : (create stale given).Excludes getPCode pack ↔
    ∃ except_set, given = .set except_set ∧ getPCode pack ∈ except_set := by
  cases given with
  | none => simp [create, initialise, Excludes]
  | code aExecptCode => simp [create, initialise, Excludes]
  | set except_set => simp [create, initialise, Excludes]
  | cmd aiCmd => simp [create, initialise, Excludes]

theorem create_shaped (stale : CWaitObject ρ) (given : Given) :
    (create stale given).Shaped ∧ (create stale given).packets = [] := by
  cases given <;> exact ⟨fun _ hl => (Option.some_ne_none _ hl.symm).elim, rfl⟩

theorem getPackCount_eq (object : CWaitObject ρ) :
    object.getPackCount = Int32.ofNat object.packets.length := by
  unfold getPackCount packets
  cases object.mpoRespList with
  | some mpoRespList => rfl
  | none =>
    cases object.mpoResp with
    | some mpoResp => rfl
    | none => rfl

theorem sizeOfIndex_eq {index : Int32} (hindex : 0 ≤ index) :
    sizeOfIndex index = index.toInt.toNat := by
  have hwide : index.toInt64.toInt = index.toInt := Int32.toInt_toInt64 index
  have hpos : 0 ≤ index.toInt64 := by
    rw [Int64.le_iff_toInt_le, hwide]
    exact Int32.le_iff_toInt_le.mp hindex
  rw [sizeOfIndex, Int64.toNat_toUInt64_of_le hpos, ← Int64.toNat_toInt, hwide]

theorem getPacket_eq (hne : object.packets.length ≠ 1) {index : Int32}
    (hindex : 0 ≤ index) : object.getPacket index = object.packets[index.toInt.toNat]? := by
  rw [← sizeOfIndex_eq hindex]
  unfold getPacket packets at *
  cases hlist : object.mpoRespList with
  | some mpoRespList => rfl
  | none =>
    cases hresp : object.mpoResp with
    | some mpoResp => simp [hlist, hresp] at hne
    | none => rfl

/-- The single packet of an object without a list is given at every index. -/
theorem getPacket_one (h : object.Shaped) (hone : object.packets.length = 1) :
    object.getPacket 1 ≠ object.packets[1]? := by
  unfold getPacket packets at *
  cases hlist : object.mpoRespList with
  | some mpoRespList =>
    have hlen := h mpoRespList hlist
    rw [hlist] at hone
    exact absurd hone (by simp; omega)
  | none =>
    cases hresp : object.mpoResp with
    | some mpoResp => simp
    | none => simp [hlist, hresp] at hone

/-- What is held is what is to be kept, if the object has not been made of a code that occurs. -/
theorem collect_create_packets (stale : CWaitObject ρ) :
    (collect getPCode packs (create stale given)).packets = kept getPCode given packs ↔
      ∀ c, given = .code c → ∀ pack, some pack ∈ packs → getPCode pack ≠ c := by
  rw [collect_packets, (create_shaped stale given).2, List.nil_append, kept]
  have hsame : (∀ pack, (create stale given).Excludes getPCode pack ↔
      getPCode pack ∈ given.excepted) →
      packs.reduceOption.filter (fun pack => ¬ (create stale given).Excludes getPCode pack) =
        packs.reduceOption.filter fun pack => getPCode pack ∉ given.excepted := by
    intro hiff
    refine List.filter_congr fun pack _ => ?_
    rw [decide_eq_decide, hiff]
  cases given with
  | none =>
    exact iff_of_true (hsame fun pack => by simp [excludes_create, Given.excepted]) nofun
  | set except_set =>
    exact iff_of_true (hsame fun pack => by simp [excludes_create, Given.excepted]) nofun
  | cmd aiCmd =>
    exact iff_of_true (hsame fun pack => by simp [excludes_create, Given.excepted]) nofun
  | code aExecptCode =>
    have hall : packs.reduceOption.filter
        (fun pack => ¬ (create stale (.code aExecptCode)).Excludes getPCode pack) =
          packs.reduceOption :=
      List.filter_eq_self.mpr fun pack _ => by simp [excludes_create]
    rw [hall, eq_comm, List.filter_eq_self]
    simp [Given.excepted, List.reduceOption_mem_iff]

/-- The packets are collected exactly where the object has not been made of a code that occurs, and
more than one packet is kept, or none; they are counted by an `int`. -/
theorem collects_iff : Collects getPCode stale given packs ↔
    (∀ c, given = .code c → ∀ pack, some pack ∈ packs → getPCode pack ≠ c) ∧
      (kept getPCode given packs).length ≠ 1 ∧ (kept getPCode given packs).length < 2 ^ 31 := by
  have hshaped := collect_shaped getPCode (create_shaped stale given).1 packs
  have hcount := getPackCount_eq (collect getPCode packs (create stale given))
  unfold Collects
  rw [← collect_create_packets stale]
  simp only
  refine and_congr_right fun hpackets => ?_
  rw [hcount, hpackets]
  constructor
  · rintro ⟨hlen, hget⟩
    refine ⟨fun hone => ?_, ?_⟩
    · refine getPacket_one hshaped (hpackets ▸ hone) ?_
      rw [hpackets]
      exact hget 1 (by decide)
    · have hlt := (Int32.ofNat (kept getPCode given packs).length).toInt_lt
      omega
  · rintro ⟨hne, hlt⟩
    refine ⟨Int32.toInt_ofNat_of_lt hlt, fun index hindex => ?_⟩
    rw [← hpackets] at hne ⊢
    exact getPacket_eq hne hindex

/-- The code zero is not left out, and a single packet is the second one as well. -/
theorem not_collects : let stale : CWaitObject CPasePacket := ⟨∅, 0, none, none, 0, 0⟩
    ¬ Collects CPasePacket.getPCode stale (.code 0) [some ⟨0⟩] ∧
      ¬ Collects CPasePacket.getPCode stale .none [some ⟨0⟩] :=
  ⟨fun h => absurd h.1 (by decide), fun h => absurd (h.2.2 1 (by decide)) (by decide)⟩

end CWaitObject

end Netfram
