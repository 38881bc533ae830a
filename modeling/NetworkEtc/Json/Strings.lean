-- SUMMARY: What the characters of a string token spell, and that decodeString finds it.
import NetworkEtc.Json.Reader

/-!
# Strings

A string token decodes to what it spells, and to nothing if it spells nothing.
-/

namespace Json

open Library.Printf

variable {c e : UInt8} {current rest body decoded e' s : List UInt8} {token : Token}

theorem text_append (type : TokenType) (text rest : List UInt8) :
    (Token.mk type (text ++ rest) rest).text = text := by
  unfold Token.text
  dsimp only
  rw [List.length_append, Nat.add_sub_cancel]
  exact List.take_left

-- ---------------------------------------------------------------------------
-- Where a string ends
-- ---------------------------------------------------------------------------

/-- No quote but behind a backslash. -/
inductive Quoted : List UInt8 → Prop where
  | nil : Quoted []
  | plain {c : UInt8} {body : List UInt8} (hquote : c ≠ ascii '"') (hbackslash : c ≠ ascii '\\')
    (h : Quoted body) : Quoted (c :: body)
  | escape {c : UInt8} {body : List UInt8} (h : Quoted body) : Quoted (ascii '\\' :: c :: body)

theorem readString_quote (current : List UInt8) :
    readString (ascii '"' :: current) = (true, current) := by
  cases current with
  | nil => rfl
  | cons c current => rfl

theorem readString_plain (hquote : c ≠ ascii '"') (hbackslash : c ≠ ascii '\\')
    (current : List UInt8) : readString (c :: current) = readString current := by
  cases current with
  | nil => simp only [readString, decide_eq_false hquote]
  | cons d current =>
    rw [readString, if_neg hbackslash, if_neg hquote]

theorem readString_escape (c : UInt8) (current : List UInt8) :
    readString (ascii '\\' :: c :: current) = readString current := by
  rw [readString, if_pos rfl]

theorem Quoted.readString (h : Quoted body) (rest : List UInt8) :
    readString (body ++ ascii '"' :: rest) = (true, rest) := by
  induction h with
  | nil => exact readString_quote rest
  | plain hquote hbackslash h ih => exact (readString_plain hquote hbackslash _).trans ih
  | escape h ih => exact (readString_escape _ _).trans ih

theorem quoted_of_readString (n : Nat) (hn : current.length ≤ n)
    (h : readString current = (true, rest)) :
    ∃ body, Quoted body ∧ current = body ++ ascii '"' :: rest := by
  induction n generalizing current with
  | zero =>
    rw [List.eq_nil_of_length_eq_zero (Nat.le_zero.mp hn)] at h
    cases h
  | succ n ih =>
    match current with
    | [] => cases h
    | c :: current =>
      rw [List.length_cons, Nat.succ_le_succ_iff] at hn
      by_cases hquote : c = ascii '"'
      · rw [hquote, readString_quote] at h
        cases h
        exact ⟨[], .nil, by rw [hquote]; rfl⟩
      by_cases hbackslash : c = ascii '\\'
      · subst hbackslash
        cases current with
        | nil => cases h
        | cons d current =>
          rw [readString_escape] at h
          obtain ⟨body, hbody, heq⟩ := ih (Nat.le_of_succ_le hn) h
          exact ⟨_, hbody.escape, by rw [heq]; rfl⟩
      · rw [readString_plain hquote hbackslash] at h
        obtain ⟨body, hbody, heq⟩ := ih hn h
        exact ⟨_, hbody.plain hquote hbackslash, by rw [heq]; rfl⟩

theorem Quoted.of_plain {ds : List UInt8} (hds : ∀ d ∈ ds, d ≠ ascii '\\')
    (h : Quoted (ds ++ body)) : Quoted body := by
  induction ds with
  | nil => exact h
  | cons d ds ih =>
    obtain ⟨hd, hds⟩ := List.forall_mem_cons.mp hds
    rw [List.cons_append] at h
    generalize heq : ds ++ body = text at h
    cases h with
    | plain _ _ h => exact ih hds (heq ▸ h)
    | escape _ => exact absurd rfl hd

-- ---------------------------------------------------------------------------
-- Hexadecimal digits
-- ---------------------------------------------------------------------------

def hexDigitValue (c : UInt8) : Option UInt32 :=
  if ascii '0' ≤ c ∧ c ≤ ascii '9' then some (c - ascii '0').toUInt32
  else if ascii 'a' ≤ c ∧ c ≤ ascii 'f' then some (c - ascii 'a' + 10).toUInt32
  else if ascii 'A' ≤ c ∧ c ≤ ascii 'F' then some (c - ascii 'A' + 10).toUInt32
  else none

/-- The number that digits have, up from the number of those in front of them. -/
def hexNumber (unicode : UInt32) (ds : List UInt8) : Option UInt32 :=
  ds.foldlM (fun unicode c => (hexDigitValue c).map (unicode * 16 + ·)) unicode

/-- Four digits and their number. -/
def Hex4 (ds : List UInt8) (unicode : UInt32) : Prop :=
  ds.length = 4 ∧ hexNumber 0 ds = some unicode

theorem readHexDigits_succ (n : Nat) (unicode : UInt32) (c : UInt8) (current : List UInt8) :
    readHexDigits token (n + 1) unicode (c :: current) =
      match hexDigitValue c with
      | some digit => readHexDigits token n (unicode * 16 + digit) current
      | none => .error (addError
        (chars "Bad unicode escape sequence in string: hexadecimal digit expected.") token
        current) := by
  unfold hexDigitValue
  rw [readHexDigits]
  dsimp only [getNextChar]
  split
  · rfl
  · split
    · rfl
    · split
      · rfl
      · rfl

theorem readHexDigits_iff {n : Nat} {unicode v : UInt32} (hn : n ≤ current.length) :
    readHexDigits token n unicode current = .ok (v, rest) ↔
      ∃ ds, ds.length = n ∧ hexNumber unicode ds = some v ∧ current = ds ++ rest := by
  induction n generalizing unicode current with
  | zero =>
    rw [readHexDigits]
    constructor
    · intro h
      cases h
      exact ⟨[], rfl, rfl, rfl⟩
    · rintro ⟨ds, hlen, hnumber, rfl⟩
      rw [List.eq_nil_of_length_eq_zero hlen] at hnumber ⊢
      cases hnumber
      rfl
  | succ n ih =>
    match current with
    | [] => exact absurd hn (by simp)
    | c :: current =>
      rw [List.length_cons, Nat.succ_le_succ_iff] at hn
      rw [readHexDigits_succ]
      have hcons (ds : List UInt8) : hexNumber unicode (c :: ds) =
          (hexDigitValue c).bind fun digit => hexNumber (unicode * 16 + digit) ds := by
        unfold hexNumber
        rw [List.foldlM_cons]
        cases hexDigitValue c with
        | none => rfl
        | some digit => rfl
      cases hvalue : hexDigitValue c with
      | none =>
        refine ⟨nofun, ?_⟩
        rintro ⟨ds, hlen, hnumber, heq⟩
        obtain ⟨d, ds, rfl⟩ := List.exists_cons_of_length_eq_add_one hlen
        cases heq
        rw [hcons, hvalue] at hnumber
        cases hnumber
      | some digit =>
        dsimp only
        rw [ih hn]
        constructor
        · rintro ⟨ds, hlen, hnumber, rfl⟩
          exact ⟨c :: ds, congrArg Nat.succ hlen, by rw [hcons, hvalue]; exact hnumber, rfl⟩
        · rintro ⟨ds, hlen, hnumber, heq⟩
          obtain ⟨d, ds, rfl⟩ := List.exists_cons_of_length_eq_add_one hlen
          cases heq
          rw [hcons, hvalue] at hnumber
          exact ⟨ds, Nat.succ.inj hlen, hnumber, rfl⟩

theorem decodeUnicodeEscapeSequence_iff {v : UInt32} :
    decodeUnicodeEscapeSequence token current = .ok (v, rest) ↔
      ∃ ds, Hex4 ds v ∧ current = ds ++ rest := by
  unfold decodeUnicodeEscapeSequence
  split
  · next hshort =>
    refine ⟨nofun, ?_⟩
    rintro ⟨ds, ⟨hlen, -⟩, rfl⟩
    rw [List.length_append] at hshort
    omega
  · next hlong =>
    rw [readHexDigits_iff (Nat.not_lt.mp hlong)]
    exact exists_congr fun ds => and_assoc.symm

theorem Hex4.ne {ds : List UInt8} {unicode : UInt32} (h : Hex4 ds unicode)
    (hc : hexDigitValue c = none) : ∀ d ∈ ds, d ≠ c := by
  obtain ⟨-, hnumber⟩ := h
  generalize (0 : UInt32) = v at hnumber
  induction ds generalizing v with
  | nil => nofun
  | cons d ds ih =>
    unfold hexNumber at hnumber
    rw [List.foldlM_cons] at hnumber
    obtain ⟨w, hw, hrest⟩ := Option.bind_eq_some_iff.mp hnumber
    refine List.forall_mem_cons.mpr ⟨?_, ih w hrest⟩
    rintro rfl
    rw [hc] at hw
    cases hw

theorem Hex4.of_quoted {ds : List UInt8} {unicode : UInt32} (hds : Hex4 ds unicode)
    (h : Quoted (ds ++ body)) : Quoted body := h.of_plain (hds.ne rfl)

theorem Hex4.quoted {ds : List UInt8} {unicode : UInt32} (hds : Hex4 ds unicode)
    (h : Quoted body) : Quoted (ds ++ body) := by
  have hquote := hds.ne (c := ascii '"') rfl
  have hbackslash := hds.ne (c := ascii '\\') rfl
  clear hds
  induction ds with
  | nil => exact h
  | cons d ds ih =>
    rw [List.forall_mem_cons] at hquote hbackslash
    exact (ih hquote.2 hbackslash.2).plain hquote.1 hbackslash.1

-- ---------------------------------------------------------------------------
-- Escapes
-- ---------------------------------------------------------------------------

/-- The escapes of one character. -/
def shortEscapes : List (UInt8 × UInt8) :=
  [(ascii '"', ascii '"'), (ascii '/', ascii '/'), (ascii '\\', ascii '\\'), (ascii 'b', 8),
    (ascii 'f', 12), (ascii 'n', ascii '\n'), (ascii 'r', ascii '\r'), (ascii 't', ascii '\t')]

/-- The first half of a surrogate pair. -/
def IsHigh (unicode : UInt32) : Prop := 0xD800 ≤ unicode ∧ unicode ≤ 0xDBFF

def surrogatePair (high low : UInt32) : UInt32 :=
  (0x10000 : UInt32) + ((high &&& 0x3FF) <<< 10) + (low &&& 0x3FF)

/-- What stands behind a backslash, and the bytes it stands for. The second half of a surrogate pair
may be any number. -/
inductive Escape : List UInt8 → List UInt8 → Prop where
  | short {e c : UInt8} (h : shortEscapes.lookup e = some c) : Escape [e] [c]
  | unicode {ds : List UInt8} {unicode : UInt32} (hds : Hex4 ds unicode) (h : ¬ IsHigh unicode) :
    Escape (ascii 'u' :: ds) (codePointToUTF8 unicode)
  | pair {ds ds' : List UInt8} {high low : UInt32} (hds : Hex4 ds high) (h : IsHigh high)
    (hds' : Hex4 ds' low) :
    Escape (ascii 'u' :: ds ++ ascii '\\' :: ascii 'u' :: ds')
      (codePointToUTF8 (surrogatePair high low))

theorem decodeSurrogatePair_iff {unicode v : UInt32} :
    decodeSurrogatePair token unicode current = .ok (v, rest) ↔
      ∃ ds low, Hex4 ds low ∧ v = surrogatePair unicode low ∧
        current = ascii '\\' :: ascii 'u' :: ds ++ rest := by
  constructor
  · intro h
    unfold decodeSurrogatePair at h
    split at h
    · cases h
    · next hlong =>
      match current with
      | [] => exact absurd (by decide) hlong
      | [c] => exact absurd (by decide : 1 < 6) hlong
      | c :: c' :: current =>
        dsimp only [getNextChar] at h
        split at h
        · next hc =>
          split at h
          · next hc' =>
            cases hsecond : decodeUnicodeEscapeSequence token current with
            | error e =>
              rw [hsecond] at h
              cases h
            | ok second =>
              rw [hsecond] at h
              cases h
              obtain ⟨ds, hds, rfl⟩ := decodeUnicodeEscapeSequence_iff.mp hsecond
              exact ⟨ds, _, hds, rfl, by rw [hc, hc']; rfl⟩
          · cases h
        · cases h
  · rintro ⟨ds, low, hds, rfl, rfl⟩
    have hlong : ¬ (ascii '\\' :: ascii 'u' :: ds ++ rest).length < 6 := by
      rw [List.length_append, List.length_cons, List.length_cons, hds.1]
      omega
    unfold decodeSurrogatePair
    rw [if_neg hlong]
    dsimp only [List.cons_append, getNextChar]
    rw [if_pos rfl, if_pos rfl, decodeUnicodeEscapeSequence_iff.mpr ⟨ds, hds, rfl⟩]
    rfl

theorem decodeUnicodeCodePoint_iff {v : UInt32} :
    decodeUnicodeCodePoint token current = .ok (v, rest) ↔
      (∃ ds, Hex4 ds v ∧ ¬ IsHigh v ∧ current = ds ++ rest) ∨
      ∃ ds ds' high low, Hex4 ds high ∧ IsHigh high ∧ Hex4 ds' low ∧ v = surrogatePair high low ∧
        current = ds ++ (ascii '\\' :: ascii 'u' :: ds' ++ rest) := by
  unfold decodeUnicodeCodePoint
  constructor
  · intro h
    cases hfirst : decodeUnicodeEscapeSequence token current with
    | error e =>
      rw [hfirst] at h
      cases h
    | ok first =>
      obtain ⟨ds, hds, rfl⟩ := decodeUnicodeEscapeSequence_iff.mp hfirst
      rw [hfirst] at h
      dsimp only at h
      split at h
      · next hhigh =>
        obtain ⟨ds', low, hds', rfl, heq⟩ := decodeSurrogatePair_iff.mp h
        exact Or.inr ⟨ds, ds', _, low, hds, hhigh, hds', rfl, congrArg (ds ++ ·) heq⟩
      · next hhigh =>
        cases h
        exact Or.inl ⟨ds, hds, hhigh, rfl⟩
  · rintro (⟨ds, hds, hnot, rfl⟩ | ⟨ds, ds', high, low, hds, hhigh, hds', rfl, rfl⟩)
    · rw [decodeUnicodeEscapeSequence_iff.mpr ⟨ds, hds, rfl⟩]
      exact if_neg hnot
    · rw [decodeUnicodeEscapeSequence_iff.mpr ⟨ds, hds, rfl⟩]
      exact (if_pos hhigh).trans (decodeSurrogatePair_iff.mpr ⟨ds', low, hds', rfl, rfl⟩)

theorem decodeEscape_cons (token : Token) (e : UInt8) (current : List UInt8) :
    decodeEscape token (e :: current) =
      match shortEscapes.lookup e with
      | some c => .ok ([c], current)
      | none =>
        if e = ascii 'u' then
          match decodeUnicodeCodePoint token current with
          | .error e => .error e
          | .ok (unicode, current) => .ok (codePointToUTF8 unicode, current)
        else .error (addError (chars "Bad escape sequence in string") token current) := by
  rw [decodeEscape]
  by_cases h₁ : e = ascii '"'
  · rw [if_pos h₁, h₁]; rfl
  by_cases h₂ : e = ascii '/'
  · rw [if_neg h₁, if_pos h₂, h₂]; rfl
  by_cases h₃ : e = ascii '\\'
  · rw [if_neg h₁, if_neg h₂, if_pos h₃, h₃]; rfl
  by_cases h₄ : e = ascii 'b'
  · rw [if_neg h₁, if_neg h₂, if_neg h₃, if_pos h₄, h₄]; rfl
  rw [if_neg h₁, if_neg h₂, if_neg h₃, if_neg h₄]
  by_cases h₅ : e = ascii 'f'
  · rw [if_pos h₅, h₅]; rfl
  by_cases h₆ : e = ascii 'n'
  · rw [if_neg h₅, if_pos h₆, h₆]; rfl
  by_cases h₇ : e = ascii 'r'
  · rw [if_neg h₅, if_neg h₆, if_pos h₇, h₇]; rfl
  by_cases h₈ : e = ascii 't'
  · rw [if_neg h₅, if_neg h₆, if_neg h₇, if_pos h₈, h₈]; rfl
  rw [if_neg h₅, if_neg h₆, if_neg h₇, if_neg h₈]
  have hnone : shortEscapes.lookup e = none := by
    rw [List.lookup_eq_none_iff]
    intro p hp
    simp only [shortEscapes, List.mem_cons, List.not_mem_nil, or_false] at hp
    rcases hp with rfl | rfl | rfl | rfl | rfl | rfl | rfl | rfl <;> exact bne_iff_ne.mpr ‹_›
  exact hnone ▸ rfl

theorem decodeEscape_unicode {unicode : UInt32}
    (h : decodeUnicodeCodePoint token current = .ok (unicode, rest)) :
    decodeEscape token (ascii 'u' :: current) = .ok (codePointToUTF8 unicode, rest) := by
  have hlookup : shortEscapes.lookup (ascii 'u') = none := rfl
  rw [decodeEscape_cons, hlookup]
  dsimp only
  rw [if_pos rfl, h]

theorem decodeEscape_iff : decodeEscape token current = .ok (decoded, rest) ↔
    ∃ e, Escape e decoded ∧ current = e ++ rest := by
  match current with
  | [] =>
    refine ⟨nofun, ?_⟩
    rintro ⟨e, he, heq⟩
    cases he with
    | short => cases heq
    | unicode => cases heq
    | pair => cases heq
  | e :: current =>
    constructor
    · intro h
      rw [decodeEscape_cons] at h
      split at h
      · next c hc =>
        cases h
        exact ⟨[e], .short hc, rfl⟩
      · split at h
        · next hu =>
          cases hpoint : decodeUnicodeCodePoint token current with
          | error e =>
            rw [hpoint] at h
            cases h
          | ok point =>
            rw [hpoint] at h
            cases h
            rcases decodeUnicodeCodePoint_iff.mp hpoint with
              ⟨ds, hds, hnot, rfl⟩ | ⟨ds, ds', high, low, hds, hhigh, hds', heq, rfl⟩
            · exact ⟨_, .unicode hds hnot, by rw [hu]; rfl⟩
            · rw [heq]
              refine ⟨_, .pair hds hhigh hds', ?_⟩
              rw [hu, List.append_assoc]
              rfl
        · cases h
    · rintro ⟨text, htext, heq⟩
      cases htext with
      | short h =>
        obtain ⟨rfl, rfl⟩ := List.cons.inj heq
        rw [decodeEscape_cons, h]
      | unicode hds hnot =>
        obtain ⟨rfl, htail⟩ := List.cons.inj heq
        exact decodeEscape_unicode (decodeUnicodeCodePoint_iff.mpr (Or.inl ⟨_, hds, hnot, htail⟩))
      | pair hds hhigh hds' =>
        rw [List.append_assoc] at heq
        obtain ⟨rfl, htail⟩ := List.cons.inj heq
        exact decodeEscape_unicode (decodeUnicodeCodePoint_iff.mpr
          (Or.inr ⟨_, _, _, _, hds, hhigh, hds', rfl, htail⟩))

/-- An escape ends where the characters of the string go on. -/
theorem Quoted.of_escape (he : Escape e' decoded) (h : Quoted (ascii '\\' :: e' ++ body)) :
    Quoted body := by
  cases he with
  | short =>
    cases h with
    | plain _ hbackslash => exact absurd rfl hbackslash
    | escape h => exact h
  | unicode hds =>
    cases h with
    | plain _ hbackslash => exact absurd rfl hbackslash
    | escape h => exact hds.of_quoted h
  | pair hds _ hds' =>
    rw [List.cons_append, List.append_assoc] at h
    cases h with
    | plain _ hbackslash => exact absurd rfl hbackslash
    | escape h =>
      replace h := hds.of_quoted h
      cases h with
      | plain _ hbackslash => exact absurd rfl hbackslash
      | escape h => exact hds'.of_quoted h

-- ---------------------------------------------------------------------------
-- Strings
-- ---------------------------------------------------------------------------

/-- The bytes that the characters between the quotes stand for. -/
inductive Spells : List UInt8 → List UInt8 → Prop where
  | nil : Spells [] []
  | plain {c : UInt8} {body s : List UInt8} (hquote : c ≠ ascii '"') (hbackslash : c ≠ ascii '\\')
    (h : Spells body s) : Spells (c :: body) (c :: s)
  | escape {e decoded body s : List UInt8} (he : Escape e decoded) (h : Spells body s) :
    Spells (ascii '\\' :: e ++ body) (decoded ++ s)

theorem spells_backslash : Spells (ascii '\\' :: body) s ↔
    ∃ e decoded rest s', Escape e decoded ∧ body = e ++ rest ∧ Spells rest s' ∧ s = decoded ++ s' := by
  constructor
  · intro h
    generalize heq : ascii '\\' :: body = text at h
    cases h with
    | nil => cases heq
    | plain _ hbackslash => exact absurd (List.cons.inj heq).1.symm hbackslash
    | escape he h => exact ⟨_, _, _, _, he, (List.cons.inj heq).2, h, rfl⟩
  · rintro ⟨e, decoded, rest, s', he, rfl, h, rfl⟩
    exact h.escape he

theorem spells_cons (hquote : c ≠ ascii '"') (hbackslash : c ≠ ascii '\\') :
    Spells (c :: body) s ↔ ∃ s', Spells body s' ∧ s = c :: s' := by
  constructor
  · intro h
    generalize heq : c :: body = text at h
    cases h with
    | nil => cases heq
    | plain _ _ h =>
      obtain ⟨rfl, rfl⟩ := List.cons.inj heq
      exact ⟨_, h, rfl⟩
    | escape _ _ => exact absurd (List.cons.inj heq).1 hbackslash
  · rintro ⟨s', h, rfl⟩
    exact h.plain hquote hbackslash

theorem map_eq_ok {α β : Type} {f : α → β} {x : Except Failure α} {b : β} :
    x.map f = .ok b ↔ ∃ a, x = .ok a ∧ b = f a := by
  cases x with
  | error e => exact ⟨nofun, fun ⟨_, h, _⟩ => nomatch h⟩
  | ok a =>
    constructor
    · intro h
      cases h
      exact ⟨a, rfl, rfl⟩
    · rintro ⟨_, h, rfl⟩
      cases h
      rfl

theorem decodeChars_iff {n : Nat} (hbody : Quoted body) (hn : body.length < n) :
    decodeChars token n body = .ok s ↔ Spells body s := by
  induction n generalizing body s with
  | zero => exact absurd hn (Nat.not_lt_zero _)
  | succ n ih =>
    cases hbody with
    | nil =>
      constructor
      · intro h
        cases h
        exact .nil
      · intro h
        cases h
        rfl
    | @plain c body hquote hbackslash hbody =>
      rw [List.length_cons, Nat.add_lt_add_iff_right] at hn
      rw [decodeChars, if_neg hquote, if_neg hbackslash, spells_cons hquote hbackslash, map_eq_ok]
      exact exists_congr fun s' => and_congr_left fun _ => ih hbody hn
    | @escape c body hbody =>
      rw [List.length_cons, Nat.add_lt_add_iff_right] at hn
      have hrest : ∀ e decoded rest, Escape e decoded → c :: body = e ++ rest → ∀ s',
          decodeChars token n rest = .ok s' ↔ Spells rest s' := by
        intro e decoded rest he heq s'
        refine ih (Quoted.of_escape he ?_) (Nat.lt_of_le_of_lt ?_ hn)
        · rw [List.cons_append, ← heq]
          exact hbody.escape
        · rw [heq, List.length_append]
          exact Nat.le_add_left _ _
      rw [decodeChars, if_neg (by decide), if_pos rfl, spells_backslash]
      constructor
      · intro h
        cases hescape : decodeEscape token (c :: body) with
        | error e =>
          rw [hescape] at h
          cases h
        | ok escape =>
          rw [hescape] at h
          obtain ⟨e, he, heq⟩ := decodeEscape_iff.mp hescape
          obtain ⟨s', hs', rfl⟩ := map_eq_ok.mp h
          exact ⟨e, _, _, s', he, heq, (hrest e _ _ he heq s').mp hs', rfl⟩
      · rintro ⟨e, decoded, rest, s', he, heq, hs', rfl⟩
        rw [decodeEscape_iff.mpr ⟨e, he, heq⟩]
        exact map_eq_ok.mpr ⟨s', (hrest e decoded rest he heq s').mpr hs', rfl⟩

theorem Spells.quoted (h : Spells body s) : Quoted body := by
  induction h with
  | nil => exact .nil
  | plain hquote hbackslash _ ih => exact ih.plain hquote hbackslash
  | escape he _ ih =>
    cases he with
    | short => exact ih.escape
    | unicode hds => exact (hds.quoted ih).escape
    | pair hds _ hds' =>
      rw [List.cons_append, List.cons_append, List.cons_append, List.append_assoc]
      exact (hds.quoted (hds'.quoted ih).escape).escape

theorem decodeString_quoted {type : TokenType} (hbody : Quoted body) (rest : List UInt8) :
    decodeString ⟨type, ascii '"' :: body ++ ascii '"' :: rest, rest⟩ = .ok s ↔ Spells body s := by
  have htext : (Token.mk type (ascii '"' :: body ++ ascii '"' :: rest) rest).text =
      ascii '"' :: body ++ [ascii '"'] := by
    rw [← text_append type (ascii '"' :: body ++ [ascii '"']) rest, List.append_assoc]
    rfl
  have hinner : (ascii '"' :: body ++ [ascii '"']).tail.dropLast = body := List.dropLast_concat
  unfold decodeString
  rw [htext, hinner]
  refine decodeChars_iff hbody ?_
  rw [List.length_append, List.length_cons]
  exact Nat.lt_succ_of_le (Nat.le_add_right _ _)

/-- The escapes of the control characters. -/
theorem escape_control : ∀ n < 32,
    hexNumber 0 [ascii '0', ascii '0', hexDigit (UInt8.ofNat n / 16), hexDigit (UInt8.ofNat n % 16)] =
        some (UInt32.ofNat n) ∧
      ¬ (0xD800 ≤ UInt32.ofNat n ∧ UInt32.ofNat n ≤ 0xDBFF) ∧
      codePointToUTF8 (UInt32.ofNat n) = [UInt8.ofNat n] := by decide

/-- What the writer puts for a character is a plain character or an escape. -/
theorem escape_cases (c : UInt8) :
    (escape c = [c] ∧ c ≠ ascii '"' ∧ c ≠ ascii '\\') ∨
      ∃ e, Escape e [c] ∧ escape c = ascii '\\' :: e := by
  unfold escape
  by_cases h₁ : c = ascii '"'
  · rw [if_pos h₁, h₁]
    exact Or.inr ⟨_, .short rfl, rfl⟩
  by_cases h₂ : c = ascii '\\'
  · rw [if_neg h₁, if_pos h₂, h₂]
    exact Or.inr ⟨_, .short rfl, rfl⟩
  rw [if_neg h₁, if_neg h₂]
  by_cases h₃ : c = 8
  · rw [if_pos h₃, h₃]
    exact Or.inr ⟨_, .short rfl, rfl⟩
  by_cases h₄ : c = 12
  · rw [if_neg h₃, if_pos h₄, h₄]
    exact Or.inr ⟨_, .short rfl, rfl⟩
  rw [if_neg h₃, if_neg h₄]
  by_cases h₅ : c = ascii '\n'
  · rw [if_pos h₅, h₅]
    exact Or.inr ⟨_, .short rfl, rfl⟩
  by_cases h₆ : c = ascii '\r'
  · rw [if_neg h₅, if_pos h₆, h₆]
    exact Or.inr ⟨_, .short rfl, rfl⟩
  by_cases h₇ : c = ascii '\t'
  · rw [if_neg h₅, if_neg h₆, if_pos h₇, h₇]
    exact Or.inr ⟨_, .short rfl, rfl⟩
  rw [if_neg h₅, if_neg h₆, if_neg h₇]
  split
  · next hcontrol =>
    have hlt : c.toNat < 32 := by
      simp only [isControlCharacter, Bool.or_eq_true, Bool.and_eq_true, decide_eq_true_eq] at hcontrol
      rcases hcontrol with ⟨-, hle⟩ | hzero
      · exact Nat.lt_succ_of_le (UInt8.le_iff_toNat_le.mp hle)
      · rw [hzero]
        decide
    obtain ⟨hnumber, hhigh, heq⟩ := escape_control c.toNat hlt
    rw [UInt8.ofNat_toNat] at hnumber heq
    refine Or.inr ⟨_, ?_, rfl⟩
    rw [← heq]
    exact .unicode ⟨rfl, hnumber⟩ hhigh
  · exact Or.inl ⟨rfl, h₁, h₂⟩

theorem spells_escape (s : List UInt8) : Spells (s.flatMap escape) s := by
  induction s with
  | nil => exact .nil
  | cons c s ih =>
    rw [List.flatMap_cons]
    rcases escape_cases c with ⟨heq, hquote, hbackslash⟩ | ⟨e, he, heq⟩
    · rw [heq]
      exact ih.plain hquote hbackslash
    · rw [heq]
      exact ih.escape he

theorem orError_type {type type' : TokenType} {p : Bool × List UInt8}
    (h : (orError type p).1 = type') (hne : type' ≠ .error) : type = type' ∧ p.1 = true := by
  obtain ⟨ok, current⟩ := p
  cases ok with
  | false => exact absurd h.symm hne
  | true => exact ⟨h, rfl⟩

theorem of_ite_type {p : Prop} [Decidable p] {x y : TokenType × List UInt8} {type : TokenType}
    (h : (if p then x else y).1 = type) (hx : x.1 ≠ type) : y.1 = type := by
  split at h
  · exact absurd h hx
  · exact h

theorem readTokenAt_string (h : (readTokenAt c current).1 = .string) : c = ascii '"' := by
  by_contra hc
  have hother : ∀ type p, type ≠ .string → (orError type p).1 ≠ .string :=
    fun type p hne h => hne (orError_type h nofun).1
  unfold readTokenAt at h
  rw [if_neg hc] at h
  replace h := of_ite_type h nofun
  replace h := of_ite_type h nofun
  replace h := of_ite_type h nofun
  replace h := of_ite_type h nofun
  replace h := of_ite_type h (hother _ _ nofun)
  replace h := of_ite_type h nofun
  replace h := of_ite_type h (hother _ _ nofun)
  replace h := of_ite_type h (hother _ _ nofun)
  replace h := of_ite_type h (hother _ _ nofun)
  replace h := of_ite_type h nofun
  replace h := of_ite_type h nofun
  cases of_ite_type h nofun

theorem readToken_string (h : (readToken current).type = .string) : ∃ body rest, Quoted body ∧
    readToken current = ⟨.string, ascii '"' :: body ++ ascii '"' :: rest, rest⟩ := by
  unfold readToken at h ⊢
  dsimp only at h ⊢
  cases hstart : skipSpaces current with
  | nil =>
    rw [hstart] at h
    cases h
  | cons c current' =>
    rw [hstart] at h
    dsimp only [getNextChar] at h ⊢
    obtain rfl := readTokenAt_string h
    obtain ⟨-, hok⟩ := orError_type h nofun
    obtain ⟨body, hbody, heq⟩ := quoted_of_readString current'.length le_rfl
      (Prod.ext hok rfl : readString current' = (true, (readString current').2))
    refine ⟨body, (readString current').2, hbody, ?_⟩
    have hread : readTokenAt (ascii '"') current' = (.string, (readString current').2) := by
      change orError .string (readString current') = _
      generalize readString current' = p at hok ⊢
      obtain ⟨ok, rest⟩ := p
      cases hok
      rfl
    rw [hread]
    exact congrArg (Token.mk .string · _) (congrArg (ascii '"' :: ·) heq)

/-- A string token decodes to the bytes that its characters spell, and only then. -/
theorem decodeString_iff (h : (readToken current).type = .string) :
    decodeString (readToken current) = .ok s ↔
      ∃ body, (readToken current).text = ascii '"' :: body ++ [ascii '"'] ∧ Spells body s := by
  obtain ⟨body, rest, hbody, heq⟩ := readToken_string h
  have htext : (readToken current).text = ascii '"' :: body ++ [ascii '"'] := by
    rw [heq, ← text_append .string (ascii '"' :: body ++ [ascii '"']) rest,
      List.append_assoc]
    rfl
  rw [htext, heq, decodeString_quoted hbody]
  constructor
  · exact fun hs => ⟨body, rfl, hs⟩
  · rintro ⟨body', hbody', hs⟩
    rw [List.append_cancel_right (List.cons.inj hbody').2]
    exact hs

/-- A backslash and a letter, and a surrogate pair. -/
theorem decodeString_iff_escaped :
    let current := chars "\"\\n\\uD83D\\uDE00\","
    (readToken current).type = .string ∧
      ∃ body, (readToken current).text = ascii '"' :: body ++ [ascii '"'] ∧
        Spells body [10, 0xF0, 0x9F, 0x98, 0x80] :=
  ⟨rfl, (decodeString_iff rfl).mp rfl⟩

end Json
