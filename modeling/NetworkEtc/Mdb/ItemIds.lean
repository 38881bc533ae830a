-- SUMMARY: Item ids as 64-bit words, at any page size: which slabs' items they can name.
import Mathlib.Logic.Relation
import NetworkEtc.Mdb.Manager

/-!
# Item ids as words

`ITEM_ID` or-s four numbers together without looking at their sizes. Here the page size
is any that `mem_pool::initialize` lets through; elsewhere it is the 2^20 bytes of the
default, for which the words are the ids of `ItemId`.
-/

namespace Mdb

-- ---------------------------------------------------------------------------
-- The macros
-- ---------------------------------------------------------------------------

/-- An `item_id` -/
abbrev IdWord := BitVec 64

namespace IdWord

/-- `ITEM_ID` -/
def make (slabSize offset pageId slabId : Nat) : IdWord :=
  (BitVec.ofNat 64 slabId <<< 52) ||| (BitVec.ofNat 64 pageId <<< 36) |||
    (BitVec.ofNat 64 offset <<< 20) ||| BitVec.ofNat 64 slabSize

/-- `SLAB_SIZE` -/
def slabSize (x : IdWord) : IdWord := x &&& 0xfffff

/-- `PAGE_OFFSET` -/
def pageOffset (x : IdWord) : IdWord := (x >>> 20) &&& 0xffff

/-- `PAGE_ID` -/
def pageId (x : IdWord) : IdWord := (x >>> 36) &&& 0xffff

/-- `SLAB_ID` -/
def slabId (x : IdWord) : IdWord := (x >>> 52) &&& 0xff

/-- `SET_COUNTER` -/
def setCounter (x : IdWord) : IdWord := x ||| ((1 : IdWord) <<< 60)

/-- `CLEAR_COUNTER` -/
def clearCounter (x : IdWord) : IdWord := x &&& ~~~((1 : IdWord) <<< 60)

/-- `CLEAR_FLAGS` -/
def clearFlags (x : IdWord) : IdWord := x &&& 0x0fffffffffffffff

/-- `SET_ITEM_FLAGS` -/
def setItemFlags (x v : IdWord) : IdWord := x ||| ((v &&& 0xf) <<< 60)

/-- `ITEM_ADDR`, with its assertion. -/
def itemAddr (base pageSize : Nat) (x : IdWord) : Option Nat :=
  if x = 0 then none
  else some (base + x.pageId.toNat * pageSize + x.slabSize.toNat * x.pageOffset.toNat + pageInfoSize)

/-- The fields of an id, as `SLAB_SIZE`, `PAGE_OFFSET`, `PAGE_ID` and `SLAB_ID` give them. -/
def fields (x : IdWord) : Nat × Nat × Nat × Nat :=
  (x.slabSize.toNat, x.pageOffset.toNat, x.pageId.toNat, x.slabId.toNat)

/-- What a change of flags can do to an id. -/
inductive Flagged (x : IdWord) : IdWord → Prop
  | setCounter : Flagged x x.setCounter
  | clearCounter : Flagged x x.clearCounter
  | clearFlags : Flagged x x.clearFlags
  | setItemFlags (v : IdWord) : Flagged x (x.setItemFlags v)

variable {x y : IdWord} {s o p b : Nat}

/-- The fields are digits of the word. -/
theorem fields_eq (x : IdWord) : x.fields =
    (x.toNat % 2 ^ 20, x.toNat / 2 ^ 20 % 2 ^ 16, x.toNat / 2 ^ 36 % 2 ^ 16,
      x.toNat / 2 ^ 52 % 2 ^ 8) := by
  have hmask : ∀ (n k : Nat), n &&& (2 ^ k - 1) = n % 2 ^ k := Nat.and_two_pow_sub_one_eq_mod
  simp only [fields, slabSize, pageOffset, pageId, slabId, BitVec.toNat_and, BitVec.toNat_ushiftRight,
    Nat.shiftRight_eq_div_pow, ← hmask]
  rfl

/-- Changing flags leaves the 60 bits below them alone. -/
theorem low_flagged (h : Flagged x y) : y.toNat % 2 ^ 60 = x.toNat % 2 ^ 60 := by
  have hones : (1152921504606846975#60 : BitVec 60) = BitVec.allOnes 60 := by decide
  have hlow : BitVec.setWidth 60 y = BitVec.setWidth 60 x := by
    ext i hi
    cases h with
    | setCounter => simp [IdWord.setCounter]
    | clearCounter =>
      have hbit : (1152921504606846975#60)[i] = true := by rw [hones, BitVec.getElem_allOnes]
      simp [IdWord.clearCounter, hbit]
    | clearFlags =>
      have hbit : (1152921504606846975#60)[i] = true := by rw [hones, BitVec.getElem_allOnes]
      simp [IdWord.clearFlags, hbit]
    | setItemFlags v => simp [IdWord.setItemFlags]
  simpa using congrArg BitVec.toNat hlow

/-- Changing flags leaves the fields alone. -/
theorem fields_flagged (h : Flagged x y) : y.fields = x.fields := by
  have hlow := low_flagged h
  rw [fields_eq, fields_eq]
  simp only [Prod.mk.injEq]
  omega

/-- Numbers that fit in their fields are put side by side. -/
theorem toNat_make (hs : s < 2 ^ 20) (ho : o < 2 ^ 16) (hp : p < 2 ^ 16) (hb : b < 2 ^ 8) :
    (make s o p b).toNat = ((b * 2 ^ 16 + p) * 2 ^ 16 + o) * 2 ^ 20 + s := by
  have hor : ∀ a k c : Nat, c < 2 ^ k → a * 2 ^ k ||| c = a * 2 ^ k + c := by
    intro a k c hc
    rw [← Nat.shiftLeft_eq, Nat.shiftLeft_add_eq_or_of_lt hc]
  have hshift : ∀ n k : Nat, n * 2 ^ k < 2 ^ 64 → (BitVec.ofNat 64 n <<< k).toNat = n * 2 ^ k := by
    intro n k hn
    have hn' : n < 2 ^ 64 := (Nat.le_mul_of_pos_right n (Nat.two_pow_pos k)).trans_lt hn
    rw [BitVec.toNat_shiftLeft, BitVec.toNat_ofNat, Nat.mod_eq_of_lt hn', Nat.shiftLeft_eq,
      Nat.mod_eq_of_lt hn]
  have hsize : (BitVec.ofNat 64 s).toNat = s := by
    rw [BitVec.toNat_ofNat, Nat.mod_eq_of_lt (by omega)]
  rw [make, BitVec.toNat_or, BitVec.toNat_or, BitVec.toNat_or, hshift b 52 (by omega),
    hshift p 36 (by omega), hshift o 20 (by omega), hsize]
  -- from the top: every number is below the unit of the one in front of it
  have h₁ : b * 2 ^ 52 ||| p * 2 ^ 36 = (b * 2 ^ 16 + p) * 2 ^ 36 := by
    rw [hor b 52 _ (by omega)]
    omega
  have h₂ : (b * 2 ^ 16 + p) * 2 ^ 36 ||| o * 2 ^ 20 =
      ((b * 2 ^ 16 + p) * 2 ^ 16 + o) * 2 ^ 20 := by
    rw [hor _ 36 _ (by omega)]
    omega
  rw [h₁, h₂, hor _ 20 s hs]

/-- Numbers that fit in their fields are given back. -/
theorem fields_make (hs : s < 2 ^ 20) (ho : o < 2 ^ 16) (hp : p < 2 ^ 16) (hb : b < 2 ^ 8) :
    (make s o p b).fields = (s, o, p, b) := by
  rw [fields_eq, toNat_make hs ho hp hb]
  simp only [Prod.mk.injEq]
  omega

/-- Numbers that do not fit are not given back. -/
theorem fits_of_fields (h : (make s o p b).fields = (s, o, p, b)) :
    s < 2 ^ 20 ∧ o < 2 ^ 16 ∧ p < 2 ^ 16 ∧ b < 2 ^ 8 := by
  rw [fields_eq] at h
  simp only [Prod.mk.injEq] at h
  omega

/-- The place of an item, from the fields of its id. -/
theorem itemAddr_make (hpos : 0 < s) (hs : s < 2 ^ 20) (ho : o < 2 ^ 16) (hp : p < 2 ^ 16)
    (hb : b < 2 ^ 8) (base pageSize : Nat) :
    itemAddr base pageSize (make s o p b) = some (base + p * pageSize + s * o + pageInfoSize) := by
  have hne : make s o p b ≠ 0 := by
    intro hzero
    have hnat := toNat_make hs ho hp hb
    rw [hzero] at hnat
    simp at hnat
    omega
  have hfields := fields_make hs ho hp hb
  simp only [fields, Prod.mk.injEq] at hfields
  unfold itemAddr
  rw [if_neg hne, hfields.1, hfields.2.1, hfields.2.2.1]

end IdWord

/-! # Slab sets -/

/-- The item sizes `slab_initialize` makes slabs of, from `start` on, at most `n`. -/
def slabSizes (pageSize : Nat) (factor : Growth) : Nat → Nat → List Nat
  | 0, _ => []
  | n + 1, start =>
    let lastSize := pageSize - pageInfoSize
    if start ≤ lastSize then
      let slabSize := if lastSize / 2 < start then lastSize else start
      slabSize :: slabSizes pageSize factor n (factor.next slabSize)
    else []

/-- The sizes of a slab set: an item has at least 16 bytes besides its header. -/
def slabSet (pageSize maxSlabId baseSize : Nat) (factor : Growth) : List Nat :=
  slabSizes pageSize factor maxSlabId (if baseSize < itemHeaderSize + 16 then 64 else baseSize)

/-- `per_slab` -/
def perSlab (pageSize slabSize : Nat) : Nat := (pageSize - pageInfoSize) / slabSize

/-- What the ids that `init_page` gives to the slots of a slab's page `index` are good for:
the macros give back what they were made of, whatever flags are set or cleared, and the
addresses of two slots are as far apart as a slot is long, inside the page. -/
structure Addressed (base pageSize slabSize slabId index : Nat) : Prop where
  fields : ∀ i < perSlab pageSize slabSize, ∀ x,
    Relation.ReflTransGen IdWord.Flagged (IdWord.make slabSize i index slabId) x →
      x.fields = (slabSize, i, index, slabId)
  inside : ∀ i < perSlab pageSize slabSize, ∃ a,
    IdWord.itemAddr base pageSize (IdWord.make slabSize i index slabId) = some a ∧
      base + index * pageSize + pageInfoSize ≤ a ∧ a + slabSize ≤ base + (index + 1) * pageSize
  apart : ∀ i < perSlab pageSize slabSize, ∀ j < perSlab pageSize slabSize, i < j → ∀ a b,
    IdWord.itemAddr base pageSize (IdWord.make slabSize i index slabId) = some a →
    IdWord.itemAddr base pageSize (IdWord.make slabSize j index slabId) = some b →
      a + slabSize ≤ b

/-- The sizes of a slab set are at least the first one, and fit in a page. -/
theorem mem_slabSizes {pageSize : Nat} {factor : Growth} {n start size : Nat}
    (h : size ∈ slabSizes pageSize factor n start) :
    start ≤ size ∧ size ≤ pageSize - pageInfoSize := by
  induction n generalizing start with
  | zero => exact absurd h List.not_mem_nil
  | succ n ih =>
    unfold slabSizes at h
    simp only at h
    split at h
    · next hend =>
      have hsize : start ≤ (if (pageSize - pageInfoSize) / 2 < start then pageSize - pageInfoSize
          else start) ∧ (if (pageSize - pageInfoSize) / 2 < start then pageSize - pageInfoSize
          else start) ≤ pageSize - pageInfoSize := by
        split
        · exact ⟨hend, le_rfl⟩
        · exact ⟨le_rfl, hend⟩
      rcases List.mem_cons.mp h with rfl | h
      · exact hsize
      · obtain ⟨hnext, hle⟩ := ih h
        exact ⟨hsize.1.trans ((factor.le_next _).trans hnext), hle⟩
    · exact absurd h List.not_mem_nil

/-- The sizes leave room for an item. -/
theorem mem_slabSet {pageSize maxSlabId baseSize size : Nat} {factor : Growth}
    (h : size ∈ slabSet pageSize maxSlabId baseSize factor) :
    itemHeaderSize + 16 ≤ size ∧ size ≤ pageSize - pageInfoSize := by
  obtain ⟨hstart, hle⟩ := mem_slabSizes h
  refine ⟨le_trans ?_ hstart, hle⟩
  split
  · decide
  · next hbase => exact not_lt.mp hbase

/-- The items of a slab are addressed where its item size, the number of its items in a
page and its number fit in their fields. -/
theorem addressed_of_fits {base pageSize slabSize slabId index : Nat} (hpos : 0 < slabSize)
    (hindex : index < MAX_PAGES_NO) (hs : slabSize < 2 ^ 20)
    (ho : perSlab pageSize slabSize ≤ 2 ^ 16) (hb : slabId < 2 ^ 8)
    (hpage : pageInfoSize ≤ pageSize) : Addressed base pageSize slabSize slabId index := by
  have haddr : ∀ i < perSlab pageSize slabSize, IdWord.itemAddr base pageSize
      (IdWord.make slabSize i index slabId) =
        some (base + index * pageSize + slabSize * i + pageInfoSize) := fun i hi =>
    IdWord.itemAddr_make hpos hs (hi.trans_le ho) hindex hb base pageSize
  have hstep : ∀ i j, i < j → slabSize * i + slabSize ≤ slabSize * j := fun i j hij => by
    rw [← Nat.mul_succ]
    exact Nat.mul_le_mul_left slabSize hij
  refine ⟨fun i hi x hx => ?_, fun i hi => ?_, fun i hi j hj hij a b ha hb => ?_⟩
  · induction hx with
    | refl => exact IdWord.fields_make hs (hi.trans_le ho) hindex hb
    | tail _ hflag ih => rw [IdWord.fields_flagged hflag, ih]
  · refine ⟨_, haddr i hi, by omega, ?_⟩
    have hlast : slabSize * perSlab pageSize slabSize ≤ pageSize - pageInfoSize :=
      Nat.mul_div_le _ _
    have hroom := hstep i _ hi
    rw [Nat.succ_mul]
    omega
  · rw [haddr i hi] at ha
    rw [haddr j hj] at hb
    cases ha
    cases hb
    have hroom := hstep i j hij
    omega

/-- Item ids and slots: for every page size that is admitted, every slab of every slab set
and every page, the ids of the slots give back what they were made of and lead to ranges
apart inside the page, if and only if the item size is below 2^20, at most 2^16 items are
in a page, and the slab's number is below 2^8. -/
theorem addressed_iff {pageSize maxSlabId baseSize : Nat} (factor : Growth)
    (hpage : 2 ^ 20 ≤ pageSize) {slabId slabSize : Nat}
    (hslab : (slabSet pageSize maxSlabId baseSize factor)[slabId]? = some slabSize)
    (base : Nat) {index : Nat} (hindex : index < MAX_PAGES_NO) :
    Addressed base pageSize slabSize slabId index ↔
      slabSize < 2 ^ 20 ∧ perSlab pageSize slabSize ≤ 2 ^ 16 ∧ slabId < 2 ^ 8 := by
  obtain ⟨hroom, hfit⟩ := mem_slabSet (List.mem_of_getElem? hslab)
  have hpos : 0 < slabSize := lt_of_lt_of_le (by decide) hroom
  constructor
  · intro h
    have hper : 0 < perSlab pageSize slabSize := Nat.div_pos hfit hpos
    -- the last slot of the page has the largest offset
    have hlast := h.fields (perSlab pageSize slabSize - 1) (Nat.sub_lt hper Nat.one_pos) _ .refl
    obtain ⟨hs, ho, -, hb⟩ := IdWord.fits_of_fields hlast
    exact ⟨hs, by omega, hb⟩
  · rintro ⟨hs, ho, hb⟩
    have hinfo : pageInfoSize ≤ pageSize := le_trans (by decide) hpage
    exact addressed_of_fits hpos hindex hs ho hb hinfo

/-- Sizes that double. -/
def doubling : Growth := ⟨fun start => 2 * start, fun start => by omega⟩

/-- The first slab of a set with the default page size. -/
theorem addressed_first : Addressed 0 pageSize 64 0 1 :=
  have hslab : (slabSet pageSize TAIR_SLAB_LARGEST 64 doubling)[0]? = some 64 := by decide
  (addressed_iff doubling (by decide) hslab 0 (by decide)).mpr ⟨by decide, by decide, by decide⟩

/-- The last slab of a set with pages of twice the default size. -/
theorem not_addressed_last :
    (slabSet (2 ^ 21) TAIR_SLAB_LARGEST 64 doubling)[14]? = some (2 ^ 21 - pageInfoSize) ∧
      ¬ Addressed 0 (2 ^ 21) (2 ^ 21 - pageInfoSize) 14 1 := by
  refine ⟨by decide, fun h => ?_⟩
  have hfields := h.fields 0 (by decide) _ .refl
  exact absurd (IdWord.fits_of_fields hfields).1 (by decide)

/-- At the default page size every slab is addressed, as long as there are no more than
256 of them. -/
theorem addressed_default {maxSlabId baseSize : Nat} {factor : Growth} {slabId slabSize : Nat}
    (hslab : (slabSet pageSize maxSlabId baseSize factor)[slabId]? = some slabSize)
    (hmax : slabId < 2 ^ 8) (base : Nat) {index : Nat} (hindex : index < MAX_PAGES_NO) :
    Addressed base pageSize slabSize slabId index := by
  obtain ⟨hroom, hfit⟩ := mem_slabSet (List.mem_of_getElem? hslab)
  have hsize : slabSize < 2 ^ 20 := lt_of_le_of_lt hfit (by decide)
  have hper : perSlab pageSize slabSize ≤ 2 ^ 16 :=
    (Nat.div_le_div_left hroom (by decide)).trans (by decide)
  exact addressed_of_fits (lt_of_lt_of_le (by decide) hroom) hindex hsize hper hmax (by decide)

/-! # The ids of the default page size -/

namespace IdWord

/-- A word as an id by its bit fields. -/
def toItemId (x : IdWord) : ItemId :=
  ⟨x.extractLsb' 0 20, x.extractLsb' 20 16, x.extractLsb' 36 16, x.extractLsb' 52 8,
    x.extractLsb' 60 4⟩

theorem toItemId_fields (x : IdWord) : x.fields =
    (x.toItemId.slabSize.toNat, x.toItemId.offset.toNat, x.toItemId.pageId.toNat,
      x.toItemId.slabId.toNat) := by
  rw [fields_eq]
  simp [toItemId, BitVec.extractLsb'_toNat, Nat.shiftRight_eq_div_pow]

theorem toItemId_make (hs : s < 2 ^ 20) (ho : o < 2 ^ 16) (hp : p < 2 ^ 16) (hb : b < 2 ^ 8) :
    (make s o p b).toItemId = ItemId.make s o p b := by
  have hnat := toNat_make hs ho hp hb
  have hdigits : ∀ start len n : Nat, (make s o p b).toNat / 2 ^ start % 2 ^ len = n % 2 ^ len →
      (make s o p b).extractLsb' start len = BitVec.ofNat len n := by
    intro start len n h
    apply BitVec.eq_of_toNat_eq
    rw [BitVec.extractLsb'_toNat, Nat.shiftRight_eq_div_pow, h, BitVec.toNat_ofNat]
  rw [hnat] at hdigits
  apply ItemId.ext
  · apply hdigits 0 20
    omega
  · apply hdigits 20 16
    omega
  · apply hdigits 36 16
    omega
  · apply hdigits 52 8
    omega
  · apply hdigits 60 4 0
    omega

/-- Words with the same fields are ids that differ in the flags at most. -/
theorem toItemId_of_fields {x y : IdWord} (hfields : x.fields = y.fields) :
    x.toItemId = { y.toItemId with flags := x.toItemId.flags } := by
  rw [toItemId_fields, toItemId_fields] at hfields
  simp only [Prod.mk.injEq] at hfields
  apply ItemId.ext
  · exact BitVec.eq_of_toNat_eq hfields.1
  · exact BitVec.eq_of_toNat_eq hfields.2.1
  · exact BitVec.eq_of_toNat_eq hfields.2.2.1
  · exact BitVec.eq_of_toNat_eq hfields.2.2.2
  · rfl

theorem toItemId_clearFlags (x : IdWord) : x.clearFlags.toItemId = x.toItemId.clearFlags := by
  have hmask : x.clearFlags.toNat = x.toNat % 2 ^ 60 := Nat.and_two_pow_sub_one_eq_mod x.toNat 60
  have hflags : x.clearFlags.toItemId.flags = 0 := by
    apply BitVec.eq_of_toNat_eq
    simp only [toItemId, BitVec.extractLsb'_toNat, hmask, Nat.shiftRight_eq_div_pow]
    rw [Nat.div_eq_of_lt (Nat.mod_lt _ (Nat.two_pow_pos 60))]
    rfl
  rw [toItemId_of_fields (fields_flagged (.clearFlags (x := x))), hflags]
  rfl

theorem toItemId_setItemFlags (x : IdWord) (v : BitVec 8) :
    (x.setItemFlags (v.setWidth 64)).toItemId = x.toItemId.setItemFlags v := by
  have hflags : (x.setItemFlags (v.setWidth 64)).toItemId.flags =
      x.toItemId.flags ||| v.setWidth 4 := by
    apply BitVec.eq_of_getElem_eq
    intro i hi
    obtain rfl | rfl | rfl | rfl : i = 0 ∨ i = 1 ∨ i = 2 ∨ i = 3 := by omega
    all_goals simp [toItemId, setItemFlags]
  rw [toItemId_of_fields (fields_flagged (.setItemFlags (x := x) (v.setWidth 64))), hflags]
  rfl

/-- `ITEM_ADDR` of a word is the address of its id. -/
theorem itemAddr_toItemId (hx : x ≠ 0) (base : Nat) : itemAddr base pageSize x =
    some (base + x.toItemId.addr.1 * pageSize + x.toItemId.addr.2 + pageInfoSize) := by
  have hfields := toItemId_fields x
  simp only [fields, Prod.mk.injEq] at hfields
  unfold itemAddr ItemId.addr
  rw [if_neg hx, hfields.1, hfields.2.1, hfields.2.2.1]

end IdWord

end Mdb
