-- SUMMARY: The start line of a request, as `CHttp` takes it from a block.
import Mathlib.Data.List.GetD
import NetworkEtc.HTTPClient.IMF
import NetworkEtc.Netfram.SessionWrite
import NetworkEtc.Netfram.SockAddr

/-!
# `CHttp::DecodeStartLine`

The scanner reads the block as a C string: it stops at a zero and not at the end of the block.
-/

namespace HTTPClient

open Library Library.Decimal Library.Printf Netfram

/-- `' '` -/
def blank : UInt8 := ascii ' '

def word (text : String) : List UInt8 := text.toList.map ascii

namespace CHttp

/-- `CMINA_ERROR_METHOD` -/
def errorMethod : Int := -1
/-- `CMINA_ERROR_URI` -/
def errorURI : Int := -2
/-- `CMINA_ERROR_VERSION` -/
def errorVersion : Int := -3

/-! `CMINA_HTTP_COPY`, …, `CMINA_HTTP_UNLOCK` -/

def httpCopy : UInt32 := 1
def httpDelete : UInt32 := 2
def httpGet : UInt32 := 3
def httpHead : UInt32 := 4
def httpLock : UInt32 := 5
def httpMkcol : UInt32 := 6
def httpMove : UInt32 := 7
def httpOptions : UInt32 := 8
def httpPatch : UInt32 := 9
def httpPost : UInt32 := 10
def httpProfind : UInt32 := 11
def httpProppache : UInt32 := 12
def httpPut : UInt32 := 13
def httpTrace : UInt32 := 14
def httpUnlock : UInt32 := 15

end CHttp

structure CHttp where
  muVersion : UInt32
  muMethod : UInt32
  mpcURI : Option (List UInt8)
  mpoBlock : CMemblock
  deriving DecidableEq

namespace CHttp

/-- `strncmp` with one name after the other; `muMethod` stays if it is none of them. -/
def compareAll (muMethod : UInt32) (cur : List UInt8) : List (String × UInt32) → UInt32
  | [] => muMethod
  | (name, code) :: names =>
    if cur.take name.length = word name then code else compareAll muMethod cur names

/-- `switch (len)` -/
def switchMethod (muMethod : UInt32) (cur : List UInt8) (len : Int32) : Option UInt32 :=
  match len.toInt with
  | 3 => some (compareAll muMethod cur [("GET", httpGet), ("PUT", httpPut)])
  | 4 =>
    if cur.getD 1 0 = ascii 'O' then
      some (compareAll muMethod cur
        [("POST", httpPost), ("COPY", httpCopy), ("MOVE", httpMove), ("LOCK", httpLock)])
    else some (compareAll muMethod cur [("HEAD", httpHead)])
  | 5 => some (compareAll muMethod cur
      [("MKCOL", httpMkcol), ("PATCH", httpPatch), ("TRACE", httpTrace)])
  | 6 => some (compareAll muMethod cur [("DELETE", httpDelete), ("UNLOCK", httpUnlock)])
  | 7 => some (compareAll muMethod cur [("OPTIONS", httpOptions)])
  | 8 => some (compareAll muMethod cur [("PROPFIND", httpProfind)])
  | 9 => some (compareAll muMethod cur [("PROPPATCH", httpProppache)])
  | _ => none

/-- `strchr(cur, ' ')`, unless it is `NULL` or `cur`. -/
def separator (cur : List UInt8) : Option Nat := (cur.idxOf? blank).filter (· ≠ 0)

/-- The number that `muVersion` gets from the two digits. -/
def versionOf (major minor : UInt8) : UInt32 := UInt32.ofNat (digit major * 10 + digit minor)

/-- The C string at the read pointer. What stands `behind` the memory of the block is read, too. -/
def start (http : CHttp) (behind : List UInt8) : List UInt8 :=
  cstr (http.mpoBlock.getRead ++ behind)

/-- `DecodeStartLine`. There is `room` for a copy of the URI, or `strndup` returns `NULL`. -/
def decodeStartLine (http : CHttp) (behind : List UInt8) (room : Bool) : Int × CHttp :=
  let cur := http.start behind
  if http.mpoBlock.getSize < "get x HTTP/1.1\r\n".length then (-1, http)
  else
    match separator cur with
    | none => (errorMethod, http)
    | some sep =>
      match switchMethod http.muMethod cur (Int32.ofNat sep) with
      | none => (errorMethod, http)
      | some muMethod =>
        let http := { http with muMethod }
        let cur := cur.drop (sep + 1)
        match separator cur with
        | none => (errorURI, http)
        | some sep' =>
          if room = false then (errorURI, { http with mpcURI := none })
          else
            let http := { http with mpcURI := some (cur.take sep') }
            let cur := cur.drop (sep' + 1)
            if cur.take 5 ≠ word "HTTP/" ∨ isDigit (cur.getD 5 0) = false ∨
                cur.getD 6 0 ≠ ascii '.' ∨ isDigit (cur.getD 7 0) = false then (errorVersion, http)
            else
              let muVersion := versionOf (cur.getD 5 0) (cur.getD 7 0)
              let http := { http with muVersion }
              if muVersion = 9 ∧ muMethod ≠ httpGet then (errorMethod, http)
              else
                let cur := sep + 1 + (sep' + 1)
                (minaOk, { http with mpoBlock := (http.mpoBlock.setRead (cur + 10)).2 })

end CHttp

/-- The known methods with their numbers. -/
def methods : List (List UInt8 × UInt32) :=
  [(word "COPY", CHttp.httpCopy), (word "DELETE", CHttp.httpDelete), (word "GET", CHttp.httpGet),
    (word "HEAD", CHttp.httpHead), (word "LOCK", CHttp.httpLock), (word "MKCOL", CHttp.httpMkcol),
    (word "MOVE", CHttp.httpMove), (word "OPTIONS", CHttp.httpOptions),
    (word "PATCH", CHttp.httpPatch), (word "POST", CHttp.httpPost),
    (word "PROPFIND", CHttp.httpProfind), (word "PROPPATCH", CHttp.httpProppache),
    (word "PUT", CHttp.httpPut), (word "TRACE", CHttp.httpTrace),
    (word "UNLOCK", CHttp.httpUnlock)]

/-! # Start lines -/

structure StartLine where
  method : List UInt8
  uri : List UInt8
  major : UInt8
  minor : UInt8
  deriving DecidableEq

namespace StartLine

/-- The line without the `CRLF` at its end. -/
def words (line : StartLine) : List UInt8 :=
  line.method ++ blank :: (line.uri ++ blank ::
    (word "HTTP/" ++ [line.major, ascii '.', line.minor]))

def text (line : StartLine) : List UInt8 := line.words ++ [cr, lf]

def version (line : StartLine) : UInt32 := CHttp.versionOf line.major line.minor

/-- Two words that are not empty and have no blank in them, and two digits. -/
structure Formed (line : StartLine) : Prop where
  method_ne : line.method ≠ []
  method : blank ∉ line.method
  uri_ne : line.uri ≠ []
  uri : blank ∉ line.uri
  major : isDigit line.major = true
  minor : isDigit line.minor = true

structure Good (line : StartLine) : Prop extends line.Formed where
  known : ∃ code, (line.method, code) ∈ methods
  old : line.version = 9 → line.method = word "GET"

theorem length_words (line : StartLine) :
    line.words.length = line.method.length + line.uri.length + 10 := by
  simp only [words, word, List.length_append, List.length_cons, List.length_map, List.length_nil]
  have hslash : "HTTP/".toList.length = 5 := rfl
  omega

theorem length_text (line : StartLine) : line.text.length = line.words.length + 2 := by
  simp [text]

end StartLine

namespace CHttp

/-- What the scanner takes for a start line: the bytes at the read pointer up to a zero begin with
the words of one, and the switch leaves a number for a method. -/
structure Taken (http : CHttp) (behind : List UInt8) (room : Bool) (line : StartLine)
    (t : List UInt8) (code : UInt32) : Prop where
  size : 16 ≤ http.mpoBlock.getSize
  room : room = true
  start : http.start behind = line.words ++ t
  formed : line.Formed
  method : switchMethod http.muMethod (http.start behind) (Int32.ofNat line.method.length) =
    some code
  old : line.version = 9 → code = httpGet

/-- A start line at the head of the block is decoded and consumed, anything else is refused. -/
structure Decodes (http : CHttp) (behind : List UInt8) (room : Bool) : Prop where
  accepts : ∀ (line : StartLine) (rest : List UInt8), line.Good →
    http.mpoBlock.unread = line.text ++ rest →
    (http.decodeStartLine behind room).1 = minaOk ∧
    (line.method, (http.decodeStartLine behind room).2.muMethod) ∈ methods ∧
    (http.decodeStartLine behind room).2.mpcURI = some line.uri ∧
    (http.decodeStartLine behind room).2.muVersion = line.version ∧
    (http.decodeStartLine behind room).2.mpoBlock.unread = rest
  refuses : (¬ ∃ (line : StartLine) (rest : List UInt8),
      line.Good ∧ http.mpoBlock.unread = line.text ++ rest) →
    (http.decodeStartLine behind room).1 ≠ minaOk ∧
    (http.decodeStartLine behind room).2.mpoBlock.unread = http.mpoBlock.unread

end CHttp

/-! # The scanner -/

section

variable {http : CHttp} {behind : List UInt8} {room : Bool} {line : StartLine}
  {l m p t w rest : List UInt8} {code : UInt32} {n : Nat}

theorem zero_notMem_cstr : 0 ∉ cstr p := by
  intro h
  simpa using List.all_eq_true.mp List.all_takeWhile 0 h

theorem cstr_append_of_notMem (h : 0 ∉ l) : cstr (l ++ m) = l ++ cstr m := by
  unfold cstr
  rw [List.takeWhile_append_of_pos]
  intro c hc
  simp only [ne_eq, decide_eq_true_eq]
  rintro rfl
  exact h hc

theorem append_blank_inj (hw : blank ∉ w) (hp : blank ∉ p)
    (h : w ++ blank :: l = p ++ blank :: t) : w = p ∧ l = t := by
  have hlen : w.length = p.length := by
    have hidx := idxOf?_append hw (m := l)
    rw [h, idxOf?_append hp] at hidx
    exact (Option.some.inj hidx).symm
  obtain ⟨hwords, hrest⟩ := List.append_inj h hlen
  exact ⟨hwords, (List.cons.inj hrest).2⟩

namespace CHttp

theorem separator_append (hne : w ≠ []) (hw : blank ∉ w) :
    separator (w ++ blank :: t) = some w.length := by
  have hpos : w.length ≠ 0 := by simpa using hne
  simp [separator, idxOf?_append hw, hpos]

theorem separator_eq_some (h : separator l = some n) :
    ∃ w t, l = w ++ blank :: t ∧ w ≠ [] ∧ blank ∉ w ∧ w.length = n := by
  obtain ⟨hidx, hpos⟩ := Option.filter_eq_some_iff.mp h
  obtain ⟨w, t, rfl, hw, hlen⟩ := idxOf?_eq_some hidx
  refine ⟨w, t, rfl, ?_, hw, hlen⟩
  rintro rfl
  simp [← hlen] at hpos

theorem switchMethod_known (h : (w, code) ∈ methods) (muMethod : UInt32) (t : List UInt8) :
    switchMethod muMethod (w ++ t) (Int32.ofNat w.length) = some code := by
  simp only [methods, List.mem_cons, Prod.mk.injEq, List.not_mem_nil, or_false] at h
  rcases h with ⟨rfl, rfl⟩ | ⟨rfl, rfl⟩ | ⟨rfl, rfl⟩ | ⟨rfl, rfl⟩ | ⟨rfl, rfl⟩ | ⟨rfl, rfl⟩ |
    ⟨rfl, rfl⟩ | ⟨rfl, rfl⟩ | ⟨rfl, rfl⟩ | ⟨rfl, rfl⟩ | ⟨rfl, rfl⟩ | ⟨rfl, rfl⟩ | ⟨rfl, rfl⟩ |
    ⟨rfl, rfl⟩ | ⟨rfl, rfl⟩ <;> rfl

theorem eq_get_iff (h : (w, code) ∈ methods) : code = httpGet ↔ w = word "GET" := by
  have hall : ∀ entry ∈ methods, entry.2 = httpGet ↔ entry.1 = word "GET" := by decide
  exact hall _ h

theorem zero_notMem_method (h : (w, code) ∈ methods) : 0 ∉ w := by
  have hall : ∀ entry ∈ methods, (0 : UInt8) ∉ entry.1 := by decide
  exact hall _ h

theorem drop_word (w t : List UInt8) : (w ++ blank :: t).drop (w.length + 1) = t := by
  rw [List.append_cons]
  exact List.drop_left' (by simp)

theorem decodeStartLine_taken (h : http.Taken behind room line t code) :
    http.decodeStartLine behind room =
      (minaOk, { muVersion := line.version
                 muMethod := code
                 mpcURI := some line.uri
                 mpoBlock := (http.mpoBlock.setRead (line.words.length + 2)).2 }) := by
  have hstart : http.start behind = line.method ++ blank :: (line.uri ++ blank ::
      (word "HTTP/" ++ line.major :: ascii '.' :: line.minor :: t)) := by
    simp [h.start, StartLine.words]
  have hmethod := h.method
  have hsize : ¬ http.mpoBlock.getSize < "get x HTTP/1.1\r\n".length := Nat.not_lt.mpr h.size
  unfold decodeStartLine
  rw [hstart] at hmethod ⊢
  simp only [if_neg hsize, separator_append h.formed.method_ne h.formed.method, hmethod, drop_word,
    separator_append h.formed.uri_ne h.formed.uri, List.take_left, h.room]
  have hscan : ¬ ((word "HTTP/" ++ line.major :: ascii '.' :: line.minor :: t).take 5 ≠
      word "HTTP/" ∨
      isDigit ((word "HTTP/" ++ line.major :: ascii '.' :: line.minor :: t).getD 5 0) = false ∨
      (word "HTTP/" ++ line.major :: ascii '.' :: line.minor :: t).getD 6 0 ≠ ascii '.' ∨
      isDigit ((word "HTTP/" ++ line.major :: ascii '.' :: line.minor :: t).getD 7 0) = false) := by
    rintro (hslash | hmajor | hdot | hminor)
    · exact hslash rfl
    · exact absurd (hmajor.symm.trans h.formed.major) Bool.false_ne_true
    · exact hdot rfl
    · exact absurd (hminor.symm.trans h.formed.minor) Bool.false_ne_true
  have hold : ¬ (line.version = 9 ∧ code ≠ httpGet) := fun hversion => hversion.2 (h.old hversion.1)
  have hlen : line.method.length + 1 + (line.uri.length + 1) + 10 = line.words.length + 2 := by
    rw [line.length_words]
    omega
  rw [if_neg (by decide), if_neg hscan, hlen]
  exact if_neg hold

theorem eq_of_scanned (hslash : l.take 5 = word "HTTP/") (hdot : l.getD 6 0 = ascii '.')
    (hminor : isDigit (l.getD 7 0) = true) :
    ∃ major minor t, l = word "HTTP/" ++ major :: ascii '.' :: minor :: t ∧
      major = l.getD 5 0 ∧ minor = l.getD 7 0 := by
  have hlen : 7 < l.length := by
    by_contra hshort
    rw [List.getD_eq_default _ _ (Nat.not_lt.mp hshort)] at hminor
    exact absurd hminor (by decide)
  have hfive : l.drop 5 = l[5] :: l[6] :: l[7] :: l.drop 8 := by
    rw [List.drop_eq_getElem_cons (by omega), List.drop_eq_getElem_cons (by omega),
      List.drop_eq_getElem_cons (by omega)]
  rw [List.getD_eq_getElem _ _ (by omega)] at hdot
  refine ⟨l[5], l[7], l.drop 8, ?_, (List.getD_eq_getElem _ _ (by omega)).symm,
    (List.getD_eq_getElem _ _ (by omega)).symm⟩
  rw [← hdot, ← hslash, ← hfive, List.take_append_drop]

/-- Either the scanner takes a line, or it refuses and consumes nothing. -/
theorem decodeStartLine_cases (http : CHttp) (behind : List UInt8) (room : Bool) :
    (∃ line t code, http.Taken behind room line t code) ∨
    ((http.decodeStartLine behind room).1 ≠ minaOk ∧
      (http.decodeStartLine behind room).2.mpoBlock = http.mpoBlock) := by
  generalize hresult : http.decodeStartLine behind room = result
  have hrefuse : ∀ (error : Int) (http' : CHttp), (error, http') = result → error ≠ minaOk →
      http'.mpoBlock = http.mpoBlock →
      result.1 ≠ minaOk ∧ result.2.mpoBlock = http.mpoBlock := by
    rintro error http' rfl herror hblock
    exact ⟨herror, hblock⟩
  simp only [decodeStartLine] at hresult
  split at hresult
  · exact .inr (hrefuse _ _ hresult (by decide) rfl)
  rename_i hsize
  split at hresult
  · exact .inr (hrefuse _ _ hresult (by decide) rfl)
  rename_i sep hsep
  split at hresult
  · exact .inr (hrefuse _ _ hresult (by decide) rfl)
  rename_i code hcode
  split at hresult
  · exact .inr (hrefuse _ _ hresult (by decide) rfl)
  rename_i sep' hsep'
  split at hresult
  · exact .inr (hrefuse _ _ hresult (by decide) rfl)
  rename_i hroom
  split at hresult
  · exact .inr (hrefuse _ _ hresult (by decide) rfl)
  rename_i hscan
  split at hresult
  · exact .inr (hrefuse _ _ hresult (by decide) rfl)
  rename_i hold
  left
  obtain ⟨method, p, hstart, hne, hblank, rfl⟩ := separator_eq_some hsep
  rw [hstart, drop_word] at hsep' hscan hold
  obtain ⟨uri, l, rfl, hne', hblank', rfl⟩ := separator_eq_some hsep'
  rw [drop_word] at hscan hold
  simp only [not_or, ne_eq, not_not, Bool.not_eq_false] at hscan
  obtain ⟨major, minor, t, hl, hmajor, hminor⟩ :=
    eq_of_scanned hscan.1 hscan.2.2.1 hscan.2.2.2
  rw [← hmajor, ← hminor] at hscan hold
  refine ⟨⟨method, uri, major, minor⟩, t, code, Nat.not_lt.mp hsize, by simpa using hroom, ?_,
    ⟨hne, hblank, hne', hblank', hscan.2.1, hscan.2.2.2⟩, hcode, ?_⟩
  · simp [hstart, hl, StartLine.words]
  · intro hversion
    by_contra hget
    exact hold ⟨hversion, hget⟩

/-! # Decoding -/

theorem start_of_unread (hl : 0 ∉ l) (hunread : http.mpoBlock.unread = l ++ rest)
    (behind : List UInt8) : ∃ t, http.start behind = l ++ t := by
  obtain ⟨m, hread⟩ : ∃ m, http.mpoBlock.getRead = l ++ m := by
    refine ⟨rest ++ http.mpoBlock.getRead.drop http.mpoBlock.muSize, ?_⟩
    rw [← List.append_assoc, ← hunread]
    exact (List.take_append_drop _ _).symm
  refine ⟨cstr (m ++ behind), ?_⟩
  rw [start, hread, List.append_assoc, cstr_append_of_notMem hl]

theorem unread_of_start (h : http.mpoBlock.Layout) (hstart : http.start behind = l ++ t)
    (hlen : l.length ≤ http.mpoBlock.muSize) : ∃ rest, http.mpoBlock.unread = l ++ rest := by
  have hsize : http.mpoBlock.muSize ≤ http.mpoBlock.getRead.length := by
    have hunread := h.length_unread
    rw [CMemblock.unread, List.length_take] at hunread
    omega
  have hpre : l <+: http.mpoBlock.getRead ++ behind := by
    have hcstr : http.start behind <+: http.mpoBlock.getRead ++ behind := List.takeWhile_prefix _
    rw [hstart] at hcstr
    exact (List.prefix_append l t).trans hcstr
  have hunread : http.mpoBlock.unread = (http.mpoBlock.getRead ++ behind).take
      http.mpoBlock.muSize := (List.take_append_of_le_length hsize).symm
  obtain ⟨rest, hrest⟩ := List.prefix_take_iff.mpr ⟨hpre, hlen⟩
  exact ⟨rest, hunread.trans hrest.symm⟩

end CHttp

theorem StartLine.zero_notMem_text (h : line.Good) (huri : 0 ∉ line.uri) : 0 ∉ line.text := by
  obtain ⟨code, hcode⟩ := h.known
  have hmajor : (0 : UInt8) ≠ line.major := (isDigit_ne h.major (by decide)).symm
  have hminor : (0 : UInt8) ≠ line.minor := (isDigit_ne h.minor (by decide)).symm
  have hslash : (0 : UInt8) ∉ word "HTTP/" := by decide
  have hmarks : (0 : UInt8) ≠ blank ∧ (0 : UInt8) ≠ ascii '.' ∧ (0 : UInt8) ≠ cr ∧
      (0 : UInt8) ≠ lf := by decide
  simp [text, words, CHttp.zero_notMem_method hcode, huri, hmajor, hminor, hslash, hmarks]

/-- The words of a line are read off its text. -/
theorem StartLine.words_append_inj {one two : StartLine} {m : List UInt8} (h : one.Formed)
    (h' : two.Formed) (heq : one.words ++ l = two.words ++ m) : one = two ∧ l = m := by
  simp only [words, List.append_assoc, List.cons_append, List.nil_append] at heq
  obtain ⟨hmethod, heq⟩ := append_blank_inj h.method h'.method heq
  obtain ⟨huri, heq⟩ := append_blank_inj h.uri h'.uri heq
  have hversion := List.append_cancel_left heq
  simp only [List.cons.injEq, true_and] at hversion
  obtain ⟨hmajor, hminor, hrest⟩ := hversion
  cases one
  cases two
  simp only at hmethod huri hmajor hminor
  subst hmethod huri hmajor hminor
  exact ⟨rfl, hrest⟩

namespace CHttp

/-- A line that lies at the head of the block is taken by the scanner. -/
theorem taken_of_good (hgood : line.Good) (huri : 0 ∉ line.uri)
    (hunread : http.mpoBlock.unread = line.text ++ rest) (h : http.mpoBlock.Layout) :
    ∃ t code, (line.method, code) ∈ methods ∧ http.Taken behind true line t code := by
  obtain ⟨code, hcode⟩ := hgood.known
  obtain ⟨t, hstart⟩ := start_of_unread (StartLine.zero_notMem_text hgood huri) hunread behind
  refine ⟨[cr, lf] ++ t, code, hcode, ?_, rfl, ?_, hgood.toFormed, ?_, fun hversion =>
    (eq_get_iff hcode).mpr (hgood.old hversion)⟩
  · have hlen := h.length_unread
    have hmethod : 3 ≤ line.method.length := by
      have hall : ∀ entry ∈ methods, 3 ≤ entry.1.length := by decide
      exact hall _ hcode
    have huri : 0 < line.uri.length := List.length_pos_iff.mpr hgood.uri_ne
    rw [hunread, List.length_append, line.length_text, line.length_words] at hlen
    rw [CMemblock.getSize]
    omega
  · rw [hstart, StartLine.text, List.append_assoc]
  · rw [hstart, StartLine.text, StartLine.words]
    simp only [List.append_assoc]
    exact switchMethod_known hcode _ _

theorem unread_setRead (h : http.mpoBlock.Layout) (hunread : http.mpoBlock.unread = l ++ rest)
    (hne : l ≠ []) : (http.mpoBlock.setRead l.length).2.unread = rest := by
  have hread := (h.setRead l.length).2
  have hpos : 0 < l.length := List.length_pos_iff.mpr hne
  have hlen : http.mpoBlock.unread.length = l.length + rest.length := by
    rw [hunread, List.length_append]
  split at hread
  · obtain ⟨hnil | hshort, -⟩ := hread
    · rw [hnil] at hlen
      simp only [List.length_nil] at hlen
      omega
    · omega
  · rw [hread.2.2, hunread, List.drop_left]

/-- A start line is decoded as one if and only if no zero stands in the URI and there is room for
its copy, and whatever the scanner takes has a known method, `CRLF` behind its words and ends
inside the block. -/
theorem decodes_iff (h : http.mpoBlock.Layout) (behind : List UInt8) (room : Bool) :
    http.Decodes behind room ↔
      (∀ (line : StartLine) (rest : List UInt8), line.Good →
        http.mpoBlock.unread = line.text ++ rest → 0 ∉ line.uri ∧ room = true) ∧
      ∀ (line : StartLine) (t : List UInt8) (code : UInt32), http.Taken behind room line t code →
        (line.method, code) ∈ methods ∧ [cr, lf] <+: t ∧
          line.text.length ≤ http.mpoBlock.getSize := by
  constructor
  · intro hdecodes
    have hcopied : ∀ (line : StartLine) (rest : List UInt8), line.Good →
        http.mpoBlock.unread = line.text ++ rest → 0 ∉ line.uri ∧ room = true := by
      intro line rest hgood hunread
      obtain ⟨hok, -, huri, -⟩ := hdecodes.accepts line rest hgood hunread
      obtain ⟨line', t, code, htaken⟩ | ⟨herror, -⟩ := http.decodeStartLine_cases behind room
      · refine ⟨fun hzero => ?_, htaken.room⟩
        rw [decodeStartLine_taken htaken] at huri
        have hmem : 0 ∈ http.start behind := by
          rw [htaken.start, StartLine.words, Option.some.inj huri]
          simp [hzero]
        exact zero_notMem_cstr hmem
      · exact absurd hok herror
    refine ⟨hcopied, fun line t code htaken => ?_⟩
    have hresult := decodeStartLine_taken htaken
    have hline : ∃ (line : StartLine) (rest : List UInt8),
        line.Good ∧ http.mpoBlock.unread = line.text ++ rest := by
      by_contra hnone
      exact (hdecodes.refuses hnone).1 (by rw [hresult])
    obtain ⟨line', rest, hgood, hunread⟩ := hline
    obtain ⟨t', hstart⟩ := start_of_unread (StartLine.zero_notMem_text hgood
      (hcopied line' rest hgood hunread).1) hunread behind
    rw [htaken.start, StartLine.text, List.append_assoc] at hstart
    obtain ⟨rfl, rfl⟩ := StartLine.words_append_inj htaken.formed hgood.toFormed hstart
    have hmethod := (hdecodes.accepts line rest hgood hunread).2.1
    rw [hresult] at hmethod
    refine ⟨hmethod, List.prefix_append _ _, ?_⟩
    have hlen := h.length_unread
    rw [hunread, List.length_append] at hlen
    rw [CMemblock.getSize]
    omega
  · rintro ⟨hcopied, htaken⟩
    constructor
    · intro line rest hgood hunread
      obtain ⟨huri, rfl⟩ := hcopied line rest hgood hunread
      obtain ⟨t, code, hcode, htakes⟩ := taken_of_good hgood huri hunread h
      have hne : line.text ≠ [] := by simp [StartLine.text]
      rw [decodeStartLine_taken htakes, ← line.length_text]
      exact ⟨rfl, hcode, rfl, rfl, unread_setRead h hunread hne⟩
    · intro hnone
      obtain ⟨line, t, code, htakes⟩ | ⟨herror, hblock⟩ := http.decodeStartLine_cases behind room
      · obtain ⟨hmethod, ⟨t, rfl⟩, hlen⟩ := htaken line t code htakes
        obtain ⟨rest, hunread⟩ := unread_of_start h (by
          rw [htakes.start, ← List.append_assoc, ← StartLine.text]) hlen
        refine absurd ⟨line, rest, ⟨htakes.formed, ⟨code, hmethod⟩, fun hversion => ?_⟩, hunread⟩
          hnone
        exact (eq_get_iff hmethod).mp (htakes.old hversion)
      · exact ⟨herror, by rw [hblock]⟩

/-- A request whose block holds one text. -/
def ofText (text : List UInt8) : CHttp :=
  ⟨0, 0, none, (CMemblock.init text).setWrite text.length⟩

def getLine : StartLine := ⟨word "GET", word "x", ascii '1', ascii '1'⟩

theorem decodes_iff_get : (ofText getLine.text).Decodes [] true := by
  have hlayout : (ofText getLine.text).mpoBlock.Layout := by
    constructor <;> decide
  have hformed : getLine.Formed := by
    constructor <;> decide
  have hstart : (ofText getLine.text).start [] = getLine.words ++ [cr, lf] := by decide
  refine (decodes_iff hlayout [] true).mpr ⟨fun line rest hgood hunread => ?_,
    fun line t code htaken => ?_⟩
  · have htext : getLine.words ++ [cr, lf] = line.words ++ ([cr, lf] ++ rest) := by
      rw [← List.append_assoc]
      exact hunread
    obtain ⟨rfl, -⟩ := StartLine.words_append_inj hformed hgood.toFormed htext
    exact ⟨by decide, rfl⟩
  · obtain ⟨rfl, rfl⟩ := StartLine.words_append_inj hformed htaken.formed
      (hstart.symm.trans htaken.start)
    have hcode : switchMethod 0 ((ofText getLine.text).start []) (Int32.ofNat 3) =
        some httpGet := by decide
    have hmethod : switchMethod 0 ((ofText getLine.text).start []) (Int32.ofNat 3) = some code :=
      htaken.method
    obtain rfl := Option.some.inj (hcode.symm.trans hmethod)
    decide

/-- A word of three letters that is no method is taken for one. -/
def fooLine : StartLine := ⟨word "FOO", word "x", ascii '1', ascii '1'⟩

theorem foo_decoded : ¬ (ofText fooLine.text).Decodes [] true := by
  intro hdecodes
  have hformed : fooLine.Formed := by
    constructor <;> decide
  refine (hdecodes.refuses ?_).1 (by decide)
  rintro ⟨line, rest, hgood, hunread⟩
  have htext : fooLine.words ++ [cr, lf] = line.words ++ ([cr, lf] ++ rest) := by
    rw [← List.append_assoc]
    exact hunread
  obtain ⟨rfl, -⟩ := StartLine.words_append_inj hformed hgood.toFormed htext
  have hunknown : ∀ entry ∈ methods, entry.1 ≠ fooLine.method := by decide
  obtain ⟨code, hcode⟩ := hgood.known
  exact hunknown _ hcode rfl

end CHttp

end

end HTTPClient
