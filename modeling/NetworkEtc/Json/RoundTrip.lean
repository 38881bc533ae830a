-- SUMMARY: What FastWriter writes is read again, and documents that are read and written.
import NetworkEtc.Json.AsRead

/-!
# The round trip

A value that is written and read again is the same, up to the types of numbers.
-/

namespace Json

open Library Library.Printf

variable {δ : Type} (reals : Reals δ)

-- ---------------------------------------------------------------------------
-- What comes back
-- ---------------------------------------------------------------------------

namespace Value

mutual

/-- The value with its numbers as they are read. -/
def normal : Value δ → Value δ
  | .null => .null
  | .int value => ofInt64 value
  | .uint value => ofUInt64 value
  | .real value =>
    match decodeNumber reals ⟨.number, valueToStringDouble reals value, []⟩ with
    | .ok v => v
    | .error _ => .real value
  | .string value => .string value
  | .boolean value => .boolean value
  | .array elements => .array (normalElements elements)
  | .object members => .object (normalMembers members)

def normalElements : List (Value δ) → List (Value δ)
  | [] => []
  | v :: elements => v.normal :: normalElements elements

def normalMembers : List (List UInt8 × Value δ) → List (List UInt8 × Value δ)
  | [] => []
  | (name, v) :: members => (name, v.normal) :: normalMembers members

end

/-- The real numbers are printed as numbers, and the names are in order. -/
def Writable : Value δ → Prop
  | .real value => NumberText (valueToStringDouble reals value) ∧
    ∃ v, IsNumber reals (valueToStringDouble reals value) v
  | .object members => OrderedMap.Sorted members
  | _ => True

/-- The real numbers are printed as numbers that are read back. -/
def ReadsBack : Value δ → Prop
  | .real value => NumberText (valueToStringDouble reals value) ∧
    IsNumber reals (valueToStringDouble reals value) (.real value)
  | _ => True

end Value

open Value

variable {reals}

theorem normal_real {value : δ} {v : Value δ}
    (h : IsNumber reals (valueToStringDouble reals value) v) :
    (Value.real value).normal reals = v := by
  have hnumber := (isNumber_iff []).mp h
  rw [List.append_nil] at hnumber
  rw [normal, hnumber]

theorem writable_of_asRead : ∀ v : Value δ, AsRead v → v.ReadsBack reals → v.Writable reals
  | .real _, _, hreal => ⟨hreal.1, _, hreal.2⟩
  | .object _, hsorted, _ => hsorted
  | .null, _, _ | .int _, _, _ | .uint _, _, _ | .string _, _, _ | .boolean _, _, _
  | .array _, _, _ => trivial

mutual

/-- What has been read is read again as it is. -/
theorem normal_eq : ∀ v : Value δ, v.All AsRead → v.All (ReadsBack reals) → v.normal reals = v
  | .null, _, _ | .string _, _, _ | .boolean _, _, _ => rfl
  | .int _, hread, _ => ofInt64_of_le hread
  | .uint _, hread, _ => ofUInt64_of_lt hread
  | .real _, _, hreal => normal_real hreal.2
  | .array elements, hread, hreals =>
    congrArg Value.array (normalElements_eq elements hread.2 hreals.2)
  | .object members, hread, hreals =>
    congrArg Value.object (normalMembers_eq members hread.2 hreals.2)

theorem normalElements_eq : ∀ elements : List (Value δ), AllElements AsRead elements →
    AllElements (ReadsBack reals) elements → normalElements reals elements = elements
  | [], _, _ => rfl
  | v :: elements, hread, hreals =>
    congrArg₂ List.cons (normal_eq v hread.1 hreals.1)
      (normalElements_eq elements hread.2 hreals.2)

theorem normalMembers_eq : ∀ members : List (List UInt8 × Value δ), AllMembers AsRead members →
    AllMembers (ReadsBack reals) members → normalMembers reals members = members
  | [], _, _ => rfl
  | (name, v) :: members, hread, hreals =>
    congrArg₂ List.cons (congrArg (Prod.mk name) (normal_eq v hread.1 hreals.1))
      (normalMembers_eq members hread.2 hreals.2)

end

theorem normalMembers_map (members : List (List UInt8 × Value δ)) :
    normalMembers reals members = members.map fun m => (m.1, m.2.normal reals) := by
  induction members with
  | nil => rfl
  | cons m members ih =>
    rw [normalMembers, ih]
    rfl

theorem sorted_normalMembers {members : List (List UInt8 × Value δ)}
    (h : OrderedMap.Sorted members) : OrderedMap.Sorted (normalMembers reals members) := by
  rw [normalMembers_map]
  exact List.pairwise_map.mpr h

theorem ofMembers_eq {members : List (List UInt8 × Value δ)} (h : OrderedMap.Sorted members) :
    ofMembers members = members :=
  OrderedMap.foldl_set h

-- ---------------------------------------------------------------------------
-- What is written
-- ---------------------------------------------------------------------------

namespace FastWriter

variable {w : FastWriter} {features : Features}

theorem nameText (name : List UInt8) :
    NameText features reals name (valueToQuotedStringN name ++ [ascii ':']) := by
  have hblank : Blank [] := List.forall_mem_nil _
  have htext := @NameText.string δ features reals [] _ name [] .nil (spells_escape name) hblank
  rw [valueToQuotedStringN_eq, List.append_assoc, List.cons_append]
  exact htext

/-- The blank that is written behind a colon for YAML. -/
theorem gap_colon (features : Features) (w : FastWriter) : ∃ g, Gap features.allowComments g ∧
    (if w.yamlCompatiblityEnabled then chars ": " else chars ":") = ascii ':' :: g := by
  split
  · exact ⟨[ascii ' '], .space rfl .nil, rfl⟩
  · exact ⟨[], .nil, rfl⟩

mutual

/-- What is written for a value is one of its texts. -/
theorem writeValue_text (hw : w.dropNullPlaceholders = false) : ∀ v : Value δ,
    v.All (Writable reals) → Text features reals v.height (v.normal reals) (w.writeValue reals v)
  | .null, _ => by
    rw [writeValue, hw]
    exact .null
  | .int value, _ => .number (numberText_int value) (isNumber_int value)
  | .uint value, _ => .number (numberText_uint value) (isNumber_uint value)
  | .real value, hreal => by
    obtain ⟨htext, v, hv⟩ := hreal
    rw [normal_real hv]
    exact .number htext hv
  | .string value, _ => by
    rw [writeValue, valueToQuotedStringN_eq]
    exact .string (spells_escape value)
  | .boolean value, _ => by
    rw [writeValue]
    exact .boolean value
  | .array [], _ => .emptyArray (List.forall_mem_nil _)
  | .array (v :: elements), hall => by
    have helements := writeElements_text hw (v :: elements) nofun hall.2
    exact .array .nil helements
  | .object [], _ => .emptyObject .nil
  | .object (m :: members), hall => by
    have hmembers := writeMembers_text hw (m :: members) nofun hall.2
    have htext := Text.object hmembers
    rw [ofMembers_eq (sorted_normalMembers hall.1)] at htext
    exact htext

theorem writeElements_text (hw : w.dropNullPlaceholders = false) : ∀ elements : List (Value δ),
    elements ≠ [] → AllElements (Writable reals) elements →
      Elements features reals (heightOfElements elements) (normalElements reals elements)
        (w.writeElements reals elements)
  | [], hne, _ => (hne rfl).elim
  | [v], _, hall => by
    have hlast := Elements.last (writeValue_text hw v hall.1) .nil
    rw [List.append_nil] at hlast
    rw [heightOfElements, heightOfElements, Nat.max_zero]
    exact hlast
  | v :: v' :: elements, _, hall =>
    .cons (writeValue_text hw v hall.1) .nil .nil
      (writeElements_text hw (v' :: elements) nofun hall.2)

theorem writeMembers_text (hw : w.dropNullPlaceholders = false) :
    ∀ members : List (List UInt8 × Value δ), members ≠ [] →
      AllMembers (Writable reals) members →
      Members features reals (heightOfMembers members) (normalMembers reals members)
        (w.writeMembers reals members)
  | [], hne, _ => (hne rfl).elim
  | [(name, v)], _, hall => by
    obtain ⟨g, hg, hcolon⟩ := gap_colon features w
    have hlast := Members.last (nameText name) hg (writeValue_text hw v hall.1) .nil
    rw [List.append_nil] at hlast
    rw [heightOfMembers, heightOfMembers, Nat.max_zero, normalMembers, normalMembers, writeMembers,
      hcolon]
    simpa only [List.append_assoc, List.cons_append, List.nil_append] using hlast
  | (name, v) :: m :: members, _, hall => by
    obtain ⟨g, hg, hcolon⟩ := gap_colon features w
    have hcons := Members.cons (nameText name) hg (writeValue_text hw v hall.1) .nil
      (writeMembers_text hw (m :: members) nofun hall.2)
    rw [heightOfMembers, normalMembers, writeMembers, hcolon]
    simpa only [List.append_assoc, List.cons_append, List.nil_append] using hcons

end

end FastWriter

-- ---------------------------------------------------------------------------
-- What is read again
-- ---------------------------------------------------------------------------

variable {w : FastWriter} {features : Features} {v : Value δ}

theorem isArray_normal (h : v.isArray = true) : (v.normal reals).isArray = true := by
  cases v with
  | array => rfl
  | _ => cases h

theorem isObject_normal (h : v.isObject = true) : (v.normal reals).isObject = true := by
  cases v with
  | object => rfl
  | _ => cases h

theorem readValue_write (hw : w.dropNullPlaceholders = false) (hall : v.All (Writable reals))
    (room : Nat) : readValue features reals room (w.write reals v) =
      if v.height ≤ room then .ok (v.normal reals, if w.omitEndingLineFeed then [] else [ascii '\n'])
      else .error .stackLimit := by
  have hends : Ends (if w.omitEndingLineFeed then [] else [ascii '\n']) := by
    split <;> rfl
  exact readValue_text (FastWriter.writeValue_text hw v hall) hends

/-- What `FastWriter` writes for a value is read to this value, with its numbers as they are read,
if it is not nested too deep. -/
theorem parse_write (hw : w.dropNullPlaceholders = false) (hall : v.All (Writable reals))
    (hroot : features.strictRoot = true → v.isArray = true ∨ v.isObject = true) (root : Value δ) :
    parse features reals root (w.write reals v) =
      if v.height ≤ stackLimit then .ok (v.normal reals) else .error .stackLimit := by
  refine parse_of_readValue (readValue_write hw hall stackLimit) (fun hstrict => ?_) root
  exact (hroot hstrict).imp isArray_normal isObject_normal

/-- An object with an array of two numbers. -/
theorem parse_write_half :
    let v := Value.object [(chars "a", .array [.uint 1, .real ()])]
    FastWriter.write ⟨true, false, false⟩ .half v = chars "\x7b\"a\": [1,0.5]\x7d\n" ∧
      parse .strictMode .half .null (FastWriter.write ⟨true, false, false⟩ .half v) =
        .ok (.object [(chars "a", .array [.int 1, .real ()])]) := by
  intro v
  have hds : Digits [] := List.forall_mem_nil _
  have htext : NumberText (chars "0.5") :=
    .mk (Or.inl rfl) hds (Or.inr ⟨chars "5", List.forall_mem_singleton.mpr rfl, rfl⟩) (Or.inl rfl)
  have hnumber : IsNumber Reals.half (valueToStringDouble .half ()) (.real ()) :=
    (isNumber_iff []).mpr rfl
  have hall : v.All (Writable .half) :=
    ⟨List.pairwise_singleton _ _, ⟨trivial, trivial, ⟨htext, _, hnumber⟩, trivial⟩, trivial⟩
  exact ⟨rfl, (parse_write rfl hall (fun _ => Or.inr rfl) .null).trans rfl⟩

/-- A value that has been read from any document is the same when it is written and read again, if
this is so of its real numbers. -/
theorem parse_again {features' : Features} {root root' : Value δ} {document : List UInt8}
    (hparse : parse features reals root document = .ok v) (hreals : v.All (ReadsBack reals))
    (hw : w.dropNullPlaceholders = false)
    (hstrict : features'.strictRoot = true → features.strictRoot = true) :
    parse features' reals root' (w.write reals v) = .ok v := by
  obtain ⟨hread, hheight, hroot⟩ := parse_asRead hparse
  have hall : v.All (Writable reals) := Value.All.both writable_of_asRead v hread hreals
  have hwritten : readValue features' reals stackLimit (w.write reals v) = _ :=
    readValue_write hw hall stackLimit
  rw [normal_eq v hread hreals] at hwritten
  rw [parse_of_readValue hwritten (fun h => hroot (hstrict h)) root', if_pos hheight]

/-- A document with a comment, an escape, names that are not in order and a number that is no
`Int`. -/
theorem parse_again_sorted :
    parse .all .half .null
        (FastWriter.write ⟨false, false, true⟩ .half
          (.object [(chars "a", .string [1]), (chars "b", .array [.uint 3000000000, .int (-1)])])) =
      .ok (.object [(chars "a", .string [1]), (chars "b", .array [.uint 3000000000, .int (-1)])]) := by
  have hparse : parse .all .half .null
      (chars "/**/\x7b\"b\": [3000000000, -1], \"a\": \"\\u0001\"\x7d") =
    .ok (.object [(chars "a", .string [1]), (chars "b", .array [.uint 3000000000, .int (-1)])]) := rfl
  exact parse_again hparse ⟨trivial, trivial, ⟨trivial, trivial, trivial, trivial⟩, trivial⟩ rfl id

end Json
