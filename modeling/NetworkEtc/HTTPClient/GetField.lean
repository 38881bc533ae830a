-- SUMMARY: Looking up a header by its name, and when it is the exact name.
import Mathlib.Data.Bool.AllAny
import Mathlib.Data.List.GetD
import NetworkEtc.HTTPClient.Lines

/-!
# `GetField`

The parsers of both sides look a header up in the same way.
-/

namespace HTTPClient

open Library Library.Printf CIMFHeader

namespace CIMFHeader

/-- The name in an entry of the header table. -/
def name (header : CIMFHeader) (memory : List UInt8) (i : Nat) : List UInt8 :=
  ((header.mpoHeaders i).pair (memory.drop (header.mpcData.getD 0))).1

/-- Where the first header is that has the name, up to letter case. -/
def findField (header : CIMFHeader) (memory : List UInt8) (key : List UInt8) : Option Nat :=
  header.mpcData.bind fun mpcData =>
    ((List.range header.miHeaderSize).find? fun i =>
      (header.name memory i).map toLower = key.map toLower).map
      fun i => mpcData + (header.mpoHeaders i).valueStart

/-- A header table as `Parse` makes it: no name has a zero in it, and the values stand one behind the
other. -/
structure IsTable (header : CIMFHeader) (memory : List UInt8) : Prop where
  data : header.mpcData ≠ none
  name : ∀ i < header.miHeaderSize, ∀ k < (header.mpoHeaders i).keyLength,
    memory.getD (header.mpcData.getD 0 + (header.mpoHeaders i).keyStart + k) 0 ≠ 0
  value : ∀ i j, i < j → j < header.miHeaderSize →
    (header.mpoHeaders i).valueStart < (header.mpoHeaders j).valueStart

/-- The name is shorter than the key, which begins with it, up to letter case. -/
def IsPrefixName (name key : List UInt8) : Prop :=
  name.length < key.length ∧ (key.take name.length).map toLower = name.map toLower

end CIMFHeader

/-! # Comparing names -/

section

variable {name key rest : List UInt8}

theorem toLower_eq_zero {c : UInt8} : toLower c = 0 ↔ c = 0 := by
  constructor
  · intro h
    unfold toLower at h
    split at h
    · next hc =>
      have hle : (65 : UInt8).toNat ≤ c.toNat := UInt8.le_iff_toNat_le.mp hc.1
      have hle' : c.toNat ≤ (90 : UInt8).toNat := UInt8.le_iff_toNat_le.mp hc.2
      change 65 ≤ c.toNat at hle
      change c.toNat ≤ 90 at hle'
      have hsum := congrArg UInt8.toNat h
      rw [UInt8.toNat_add] at hsum
      change (c.toNat + 32) % 256 = 0 at hsum
      omega
    · exact h
  · rintro rfl
    rfl

/-- As much of the key is compared as the name is long. -/
theorem equalNoCase_iff (hname : ∀ c ∈ name, c ≠ 0) (hkey : ∀ c ∈ key, c ≠ 0) :
    equalNoCase name.length key (name ++ rest) = true ↔
      (key.take name.length).map toLower = name.map toLower := by
  induction name generalizing key with
  | nil => simp [equalNoCase]
  | cons c name ih =>
    have hc := hname c List.mem_cons_self
    simp only [List.length_cons, List.cons_append, equalNoCase, List.headD_cons, List.tail_cons,
      Bool.and_eq_true, Bool.or_eq_true, decide_eq_true_eq]
    cases key with
    | nil =>
      simp only [List.headD_nil, List.take_nil, List.map_nil, List.map_cons, reduceCtorEq, iff_false,
        not_and]
      intro hzero
      have heq : toLower 0 = toLower c := of_decide_eq_true hzero
      exact absurd (toLower_eq_zero.mp (heq.symm.trans (toLower_eq_zero.mpr rfl))) hc
    | cons e key =>
      have he := hkey e List.mem_cons_self
      simp only [List.headD_cons, List.tail_cons, List.take_succ_cons, List.map_cons, List.cons.injEq,
        toLower_eq_zero, he, false_or]
      rw [ih (fun x hx => hname x (List.mem_cons_of_mem c hx))
        (fun x hx => hkey x (List.mem_cons_of_mem e hx))]
      exact and_congr_left' decide_eq_true_iff

/-- The comparison takes the key for the name where it is the name, or begins with it. -/
theorem take_map_iff : (key.take name.length).map toLower = name.map toLower ↔
    name.map toLower = key.map toLower ∨ IsPrefixName name key := by
  unfold IsPrefixName
  constructor
  · intro h
    rcases Nat.lt_or_ge name.length key.length with hlt | hge
    · exact Or.inr ⟨hlt, h⟩
    · rw [List.take_of_length_le hge] at h
      exact Or.inl h.symm
  · rintro (h | ⟨-, h⟩)
    · have hlength := congrArg List.length h
      rw [List.length_map, List.length_map] at hlength
      rw [hlength, List.take_length, h]
    · exact h

theorem not_isPrefixName (h : name.map toLower = key.map toLower) : ¬ IsPrefixName name key := by
  rintro ⟨hlt, -⟩
  have hlength := congrArg List.length h
  rw [List.length_map, List.length_map] at hlength
  omega

end

/-! # Looking up -/

namespace CIMFHeader

variable {header : CIMFHeader} {memory key : List UInt8} {mpcData i : Nat}

theorem IsTable.equalNoCase_iff (h : IsTable header memory) (hdata : header.mpcData = some mpcData)
    (hkey : ∀ c ∈ key, c ≠ 0) (hi : i < header.miHeaderSize) :
    equalNoCase (header.mpoHeaders i).keyLength key
        (memory.drop (mpcData + (header.mpoHeaders i).keyStart)) = true ↔
      (header.name memory i).map toLower = key.map toLower ∨
        IsPrefixName (header.name memory i) key := by
  have hname := h.name i hi
  rw [hdata, Option.getD_some] at hname
  have htake : header.name memory i =
      (memory.drop (mpcData + (header.mpoHeaders i).keyStart)).take
        (header.mpoHeaders i).keyLength := by
    rw [CIMFHeader.name, KeyValue.pair, hdata, Option.getD_some, List.drop_drop]
  have hmem : ∀ k < (header.mpoHeaders i).keyLength,
      mpcData + (header.mpoHeaders i).keyStart + k < memory.length := by
    intro k hk
    by_contra hge
    exact hname k hk (List.getD_eq_default _ _ (Nat.le_of_not_lt hge))
  have hlength : (header.name memory i).length = (header.mpoHeaders i).keyLength := by
    rw [htake, List.length_take_of_le]
    rw [List.length_drop]
    cases hk : (header.mpoHeaders i).keyLength with
    | zero => exact Nat.zero_le _
    | succ k =>
      have hlast := hmem k (by omega)
      omega
  have hzero : ∀ c ∈ header.name memory i, c ≠ 0 := by
    intro c hc
    obtain ⟨k, hk, rfl⟩ := List.mem_iff_getElem.mp hc
    have hnonzero := hname k (hlength ▸ hk)
    rw [List.getD_eq_getElem _ _ (hmem k (hlength ▸ hk))] at hnonzero
    simpa [htake] using hnonzero
  have hsplit : memory.drop (mpcData + (header.mpoHeaders i).keyStart) =
      header.name memory i ++ (memory.drop (mpcData + (header.mpoHeaders i).keyStart)).drop
        (header.mpoHeaders i).keyLength := by
    rw [htake, List.take_append_drop]
  rw [hsplit, ← hlength, HTTPClient.equalNoCase_iff hzero hkey, take_map_iff]

/-- `GetField` finds the first header of the name, if every header whose name the key only begins with
stands behind it. -/
theorem getField_eq_iff (h : IsTable header memory) (hkey : ∀ c ∈ key, c ≠ 0) :
    header.getField memory key = header.findField memory key ↔
      ∀ i < header.miHeaderSize, IsPrefixName (header.name memory i) key →
        ∃ j < i, (header.name memory j).map toLower = key.map toLower := by
  obtain ⟨mpcData, hdata⟩ := Option.ne_none_iff_exists'.mp h.data
  have hmatch := fun i hi => h.equalNoCase_iff hdata hkey (i := i) hi
  unfold getField findField
  rw [hdata, Option.bind_some, Option.bind_some]
  constructor
  · intro heq i hi hprefix
    by_contra hnone
    simp only [not_exists, not_and] at hnone
    obtain ⟨a, hfind⟩ : ∃ a, ((List.range header.miHeaderSize).find? fun i =>
        equalNoCase (header.mpoHeaders i).keyLength key
          (memory.drop (mpcData + (header.mpoHeaders i).keyStart))) = some a := by
      apply Option.isSome_iff_exists.mp
      rw [List.find?_isSome]
      exact ⟨i, List.mem_range.mpr hi, (hmatch i hi).mpr (Or.inr hprefix)⟩
    obtain ⟨ha, hasize, hfirst⟩ := List.find?_range_eq_some.mp hfind
    have hle : a ≤ i := by
      by_contra hlt
      have hi' := hfirst i (Nat.lt_of_not_le hlt)
      rw [(hmatch i hi).mpr (Or.inr hprefix)] at hi'
      cases hi'
    rw [hfind, Option.map_some] at heq
    obtain ⟨b, hfind', hvalue⟩ := Option.map_eq_some_iff.mp heq.symm
    obtain ⟨hb, hbsize, -⟩ := List.find?_range_eq_some.mp hfind'
    have hb' := of_decide_eq_true hb
    -- the header that is found instead stands in front of that of the name
    have hlt : a < b := by
      refine lt_of_le_of_lt hle (lt_of_not_ge fun hbi => ?_)
      rcases Nat.lt_or_eq_of_le hbi with hlt | rfl
      · exact hnone b hlt hb'
      · exact not_isPrefixName hb' hprefix
    have hstart := h.value a b hlt (List.mem_range.mp hbsize)
    omega
  · intro hbefore
    congr 1
    cases hfind : (List.range header.miHeaderSize).find? fun i =>
        (header.name memory i).map toLower = key.map toLower with
    | none =>
      rw [List.find?_range_eq_none] at hfind ⊢
      intro i hi
      have hnot : ∀ j < header.miHeaderSize,
          (header.name memory j).map toLower ≠ key.map toLower := by
        intro j hj
        simpa using hfind j hj
      have hmiss : ¬ (equalNoCase (header.mpoHeaders i).keyLength key
          (memory.drop (mpcData + (header.mpoHeaders i).keyStart)) = true) := by
        rw [hmatch i hi]
        rintro (hexact | hprefix)
        · exact hnot i hi hexact
        · obtain ⟨j, hj, hexact⟩ := hbefore i hi hprefix
          exact hnot j (hj.trans hi) hexact
      simpa using hmiss
    | some b =>
      rw [List.find?_range_eq_some] at hfind ⊢
      obtain ⟨hb, hbsize, hfirst⟩ := hfind
      have hsize := List.mem_range.mp hbsize
      refine ⟨(hmatch b hsize).mpr (Or.inl (of_decide_eq_true hb)), hbsize, fun j hj => ?_⟩
      have hnot : ∀ j < b, (header.name memory j).map toLower ≠ key.map toLower := by
        intro j hj
        simpa using hfirst j hj
      have hmiss : ¬ (equalNoCase (header.mpoHeaders j).keyLength key
          (memory.drop (mpcData + (header.mpoHeaders j).keyStart)) = true) := by
        rw [hmatch j (hj.trans hsize)]
        rintro (hexact | hprefix)
        · exact hnot j hj hexact
        · obtain ⟨j', hj', hexact⟩ := hbefore j (hj.trans hsize) hprefix
          exact hnot j' (hj'.trans hj) hexact
      simpa using hmiss

/-! # The table that is made -/

/-- The entries so far, of lines in front of `p`. -/
structure TableUpTo (header : CIMFHeader) (memory : List UInt8) (buf nkv p : Nat) : Prop where
  name : ∀ i < nkv, ∀ k < (header.mpoHeaders i).keyLength,
    memory.getD (buf + (header.mpoHeaders i).keyStart + k) 0 ≠ 0
  before : ∀ i < nkv, buf + (header.mpoHeaders i).keyStart + (header.mpoHeaders i).keyLength ≤ p ∧
    buf + (header.mpoHeaders i).valueStart < p
  value : ∀ i j, i < j → j < nkv → (header.mpoHeaders i).valueStart < (header.mpoHeaders j).valueStart

theorem getD_set_of_ne {l : List UInt8} {n i : Nat} {c : UInt8} (h : i ≠ n) :
    (l.set n c).getD i 0 = l.getD i 0 := by
  simp only [List.getD_eq_getElem?_getD, List.getElem?_set_ne h.symm]

variable {header' : CIMFHeader} {fresh : Fresh} {memory' : List UInt8}
  {buf nkv nkv' p p' q r value fuel offs : Nat} {len : Int}

theorem TableUpTo.set (h : TableUpTo header memory buf nkv p) (hpq : p ≤ q) :
    TableUpTo header (memory.set q 0) buf nkv p := by
  refine ⟨fun i hi k hk => ?_, h.before, h.value⟩
  have hbefore := (h.before i hi).1
  rw [getD_set_of_ne (by omega)]
  exact h.name i hi k hk

/-- The entry of a line. -/
theorem TableUpTo.record (h : TableUpTo header memory buf nkv p) (hbuf : buf ≤ p)
    (hname : ∀ j, p ≤ j → j < q → memory.getD j 0 ≠ 0) (hpq : p ≤ q) (hqv : q < value)
    (hvr : value ≤ r) (hroom : nkv < header.miCapHeaderSize) :
    TableUpTo { header.getHeaders fresh nkv with
      mpoHeaders := Function.update (header.getHeaders fresh nkv).mpoHeaders nkv
        ⟨p - buf, q - p, value - buf, r - value⟩ } memory buf (nkv + 1) (r + 2) := by
  have hold : ∀ i < nkv, Function.update (header.getHeaders fresh nkv).mpoHeaders nkv
      ⟨p - buf, q - p, value - buf, r - value⟩ i = header.mpoHeaders i := by
    intro i hi
    rw [Function.update_of_ne hi.ne, getHeaders, if_pos hroom]
  refine ⟨fun i hi k hk => ?_, fun i hi => ?_, fun i j hij hj => ?_⟩
  · rcases Nat.lt_succ_iff_lt_or_eq.mp hi with hlt | rfl
    · simp only [hold i hlt] at hk ⊢
      exact h.name i hlt k hk
    · simp only [Function.update_self] at hk ⊢
      exact hname _ (by omega) (by omega)
  · rcases Nat.lt_succ_iff_lt_or_eq.mp hi with hlt | rfl
    · simp only [hold i hlt]
      have hbefore := h.before i hlt
      omega
    · simp only [Function.update_self]
      omega
  · rcases Nat.lt_succ_iff_lt_or_eq.mp hj with hlt | rfl
    · simp only [hold i (hij.trans hlt), hold j hlt]
      exact h.value i j hij hlt
    · simp only [hold i hij, Function.update_self]
      have hbefore := h.before i hij
      omega

/-- The loop makes a table, if it has room for it. -/
theorem headerLoop_table (hbuf : buf ≤ p)
    (hloop : headerLoop fresh buf len fuel header memory p nkv = (header', memory', p', nkv')) :
    nkv ≤ nkv' ∧ header'.mpcData = header.mpcData ∧
      (nkv' ≤ header.miCapHeaderSize → TableUpTo header memory buf nkv p →
        TableUpTo header' memory' buf nkv' p') := by
  induction fuel generalizing header memory p nkv with
  | zero =>
    cases hloop
    exact ⟨le_rfl, rfl, fun _ h => h⟩
  | succ fuel ih =>
    rw [headerLoop] at hloop
    simp only at hloop
    split at hloop
    · cases hloop
      exact ⟨le_rfl, rfl, fun _ h => h⟩
    · split at hloop
      · cases hloop
        exact ⟨le_rfl, rfl, fun _ h => h⟩
      · split at hloop
        · cases hloop
          exact ⟨le_rfl, rfl, fun _ h => h⟩
        · next q hcolon =>
          obtain ⟨-, hpq, -, -, -, hname⟩ := scanFrom_eq_some_iff.mp hcolon
          split at hloop
          · cases hloop
            exact ⟨le_rfl, rfl, fun _ h => h.set hpq⟩
          · next value hskip =>
            split at hloop
            · cases hloop
              exact ⟨le_rfl, rfl, fun _ h => h.set hpq⟩
            · next r hcrlf =>
              obtain ⟨-, hqv, -, -, -, -⟩ := scanFrom_eq_some_iff.mp hskip
              obtain ⟨-, hvr, -, -, -, -⟩ := scanFrom_eq_some_iff.mp hcrlf
              obtain ⟨hle, hdata, htable⟩ := ih (by omega) hloop
              have hdata' : (header.getHeaders fresh nkv).mpcData = header.mpcData := by
                unfold getHeaders
                split
                · rfl
                · rfl
              refine ⟨Nat.le_of_succ_le hle, hdata.trans hdata', fun hroom h => ?_⟩
              have hroom' : nkv < header.miCapHeaderSize := hle.trans hroom
              have hsame : header.getHeaders fresh nkv = header := by
                rw [getHeaders, if_pos hroom']
              apply htable
              · simpa only [hsame] using hroom
              · have hname' : ∀ j, p ≤ j → j < q →
                    ((memory.set q 0).set r 0).getD j 0 ≠ 0 := by
                  intro j hj hjq
                  rw [getD_set_of_ne (by omega), getD_set_of_ne hjq.ne]
                  exact (hname j hj hjq).1
                exact ((h.set hpq).set (hpq.trans (by omega))).record hbuf hname' hpq hqv hvr hroom'

/-- The header lines that `Parse` records make a table, if it had room for them. -/
theorem parseLines_isTable (hnew : header.miHeaderSize = 0) (hdata : header.mpcData = some buf)
    (h : header.parseLines fresh memory buf len offs = some (header', memory', p))
    (hroom : header'.miHeaderSize ≤ header.miCapHeaderSize) : IsTable header' memory' := by
  unfold parseLines at h
  split at h
  · obtain ⟨start, hskip, heq⟩ := Option.map_eq_some_iff.mp h
    obtain ⟨-, hle, -, -, -, -⟩ := scanFrom_eq_some_iff.mp hskip
    rcases hloop : headerLoop fresh buf len (len.toNat + 1) header memory start
      header.miHeaderSize with ⟨header₁, memory₁, p₁, nkv⟩
    rw [hloop] at heq
    cases heq
    obtain ⟨-, hsame, htable⟩ := headerLoop_table (by omega) hloop
    have hup := htable hroom ⟨fun i hi => by omega, fun i hi => by omega, fun i j _ hj => by omega⟩
    refine ⟨?_, ?_, hup.value⟩
    · simp [hsame, hdata]
    · simpa only [hsame, hdata, Option.getD_some] using hup.name
  · cases h
    refine ⟨by simp [hdata], fun i hi => by omega, fun i j _ hj => by omega⟩

/-- The lines `Content: x` and `Content-Length: 5`, once they have been parsed. -/
def contentLines : List Line :=
  [⟨"Content".toList.map ascii, [ascii ' '], [ascii 'x']⟩,
    ⟨"Content-Length".toList.map ascii, [ascii ' '], [ascii '5']⟩]

/-- Their table. -/
def contentTable : CIMFHeader :=
  { init (enter (fun _ => ⟨0, 0, 0, 0⟩) 0 0 contentLines) (fun _ => ⟨0, 0⟩) with
    mpcData := some 0
    miHeaderSize := 2 }

/-- What is found for `Content-Length` is the value of `Content`. -/
theorem getField_contentTable :
    contentTable.getField (contentLines.flatMap Line.parsed) ("content-length".toList.map ascii) ≠
      contentTable.findField (contentLines.flatMap Line.parsed)
        ("content-length".toList.map ascii) := by
  decide

theorem getField_eq_iff_contentTable :
    IsTable contentTable (contentLines.flatMap Line.parsed) ∧
    contentTable.getField (contentLines.flatMap Line.parsed) ("content".toList.map ascii) =
        contentTable.findField (contentLines.flatMap Line.parsed) ("content".toList.map ascii) ∧
      (∀ i < 2, IsPrefixName (contentTable.name (contentLines.flatMap Line.parsed) i)
          ("content".toList.map ascii) →
        ∃ j < i, (contentTable.name (contentLines.flatMap Line.parsed) j).map toLower =
          ("content".toList.map ascii).map toLower) := by
  have htable : IsTable contentTable (contentLines.flatMap Line.parsed) := by
    refine ⟨by decide, by decide, ?_⟩
    intro i j hij hj
    have hi : i = 0 := by simp only [contentTable] at hj; omega
    have hj' : j = 1 := by simp only [contentTable] at hj; omega
    subst hi hj'
    decide
  have hkey : ∀ c ∈ "content".toList.map ascii, c ≠ 0 := List.all_iff_forall_prop.mp rfl
  exact ⟨htable, by decide, (getField_eq_iff htable hkey).mp (by decide)⟩

end CIMFHeader

end HTTPClient
