-- SUMMARY: The token loop of Config::Init on one line: where it reads, and what it returns.
import NetworkEtc.Library.Scan
import NetworkEtc.PL.ConfigFile

/-!
# `ParseToken` in its line

The memory is the line and its zero, and each read is checked: to read behind the zero is a failure.
-/

namespace PL

open Library Library.Printf

/-! # Checked reads -/

/-- From `skipwhite` on: the first byte of the token and its position, or the end of the line. -/
def skipwhiteIn (memory : List UInt8) : Nat → Nat → Option (Option (UInt8 × Nat))
  | 0, _ => none
  | fuel + 1, p =>
    (seekIn (fun c => !isBlank c || isLineEnd c) memory p).bind fun p =>
      memory[p]?.bind fun c =>
        if isLineEnd c then some none
        else if c = ascii '#' then
          -- no byte but a zero ends the comment
          (seekIn (fun c => c = 0 || (c = 13 && c = 10)) memory (p + 1)).bind fun p =>
            skipwhiteIn memory fuel p
        else some (some (c, p))

/-- The rest of `ParseToken`, where a token begins. -/
def tokenIn (memory : List UInt8) (c : UInt8) (p : Nat) : Option (List UInt8 × Nat) :=
  if c = ascii '"' then
    (seekIn (fun c => c = ascii '"' || c = 0) memory (p + 1)).map fun q =>
      ((memory.take q).drop (p + 1), q + 1)
  else if c = ascii '=' ∨ c = ascii ',' then some ([c], p + 1)
  else (seekIn (fun c => !isWord c) memory p).map fun q => ((memory.take q).drop p, q)

/-- `ParseToken`: the token, and the position that it returns. -/
def parseTokenIn (memory : List UInt8) (start : Nat) : Option (Option (List UInt8 × Nat)) :=
  memory[start]?.bind fun c =>
    if c = 0 then some none
    else
      (skipwhiteIn memory (memory.length + 1) start).bind fun r =>
        match r with
        | none => some none
        | some (c, p) => (tokenIn memory c p).map some

namespace Config

/-- The inner loop of `Init`: the positions that `ParseToken` returns, and the variable. -/
def readValuesIn (memory : List UInt8) : Nat → Nat → ConfigVar → Option (List Nat × ConfigVar)
  | 0, _, _ => none
  | fuel + 1, p, var =>
    (parseTokenIn memory p).bind fun r =>
      match r with
      | none => some ([], var)
      | some (token, p) =>
        let var := if token.head? = some (ascii ',') then var else var.append token
        (readValuesIn memory fuel p var).map fun r => (p :: r.1, r.2)

/-- The body of the loop of `Init`: the positions that `ParseToken` returns, and the variables; a
syntax error is `none`. -/
def readLineIn (fuel : Nat) (vars : List ConfigVar) (memory : List UInt8) :
    Option (List Nat × Option (List ConfigVar)) :=
  (parseTokenIn memory 0).bind fun r =>
    match r with
    | none => some ([], some vars)
    | some (name, p) =>
      (parseTokenIn memory p).bind fun r =>
        match r with
        | none => some ([p], none)
        | some (token, q) =>
          if token.head? = some (ascii '=') then
            (readValuesIn memory fuel q ⟨name, 0, []⟩).map fun r =>
              (p :: q :: r.1, some (vars ++ [r.2]))
          else some ([p, q], none)

/-- The loop comes to an end for this line, and neither reads nor returns a position behind its
zero. -/
def StaysInLine (line : List UInt8) : Prop :=
  ∀ vars, ∃ fuel positions result, readLineIn fuel vars (line ++ [0]) = some (positions, result) ∧
    ∀ p ∈ positions, p ≤ line.length

end Config

/-! # Lines -/

/-- The text of a token, the token, and the byte behind the text. -/
inductive IsToken : List UInt8 → List UInt8 → Option UInt8 → Prop where
  | quoted {token : List UInt8} {next : Option UInt8} : ascii '"' ∉ token →
      IsToken (ascii '"' :: (token ++ [ascii '"'])) token next
  | sign {c : UInt8} {next : Option UInt8} : c = ascii '=' ∨ c = ascii ',' → IsToken [c] [c] next
  | word {c : UInt8} {w : List UInt8} {next : Option UInt8} : c ≠ ascii '"' →
      (∀ e ∈ c :: w, isWord e = true) → (∀ e ∈ next, isWord e = false) →
      IsToken (c :: w) (c :: w) next

/-- The line goes on with these tokens, and then with the rest. -/
inductive TokenSeq : List UInt8 → List (List UInt8) → List UInt8 → Prop where
  | nil {line : List UInt8} : TokenSeq line [] line
  | cons {gap text token line rest : List UInt8} {tokens : List (List UInt8)} : IsGap gap →
      IsToken text token line.head? → TokenSeq line tokens rest →
      TokenSeq (gap ++ (text ++ line)) (token :: tokens) rest

/-- Nothing is left but a comment or a line end. -/
def Ended (line : List UInt8) : Prop :=
  ∃ gap rest, line = gap ++ rest ∧ IsGap gap ∧
    ∀ c ∈ rest.head?, isLineEnd c = true ∨ c = ascii '#'

/-- A quote opens that is not closed. -/
def Unclosed (line : List UInt8) : Prop :=
  ∃ gap text, line = gap ++ ascii '"' :: text ∧ IsGap gap ∧ ascii '"' ∉ text

/-- Behind tokens of this kind, there is a quote that is not closed. -/
def LeavesOpen (allowed : List (List UInt8) → Prop) (line : List UInt8) : Prop :=
  ∃ tokens rest, TokenSeq line tokens rest ∧ allowed tokens ∧ Unclosed rest

/-- A second token is a sign of assignment, as `Init` checks it. -/
def Assigns (tokens : List (List UInt8)) : Prop :=
  ∀ token ∈ tokens[1]?, token.head? = some (ascii '=')

section

variable {memory gap text token line rest : List UInt8} {c : UInt8} {p q fuel : Nat}

/-! # One call -/

theorem skipwhiteIn_of_drop (hdrop : memory.drop p = gap ++ c :: rest) (hgap : IsGap gap)
    (hc : isBlank c = false ∨ isLineEnd c = true) :
    skipwhiteIn memory (fuel + 1) p =
      if isLineEnd c then some none
      else if c = ascii '#' then
        (seekIn (fun c => c = 0 || (c = 13 && c = 10)) memory (p + gap.length + 1)).bind fun p =>
          skipwhiteIn memory fuel p
      else some (some (c, p + gap.length)) := by
  have hseek : seekIn (fun c => !isBlank c || isLineEnd c) memory p = some (p + gap.length) := by
    refine seekIn_of_drop hdrop (fun e he => ?_) ?_
    · simp [hgap e he]
    · rcases hc with hc | hc
      · simp [hc]
      · simp [hc]
  rw [skipwhiteIn, hseek, Option.bind_some, getElem?_of_drop hdrop, Option.bind_some]

/-- A comment ends at the zero, and so does the line. -/
theorem skipwhiteIn_comment (hdrop : memory.drop p = gap ++ ascii '#' :: (text ++ 0 :: rest))
    (hgap : IsGap gap) (hzero : 0 ∉ text) : skipwhiteIn memory (fuel + 2) p = some none := by
  have hbehind := drop_succ_of_drop (drop_of_drop hdrop)
  have hend : memory.drop (p + gap.length + 1 + text.length) = [] ++ 0 :: rest :=
    drop_of_drop hbehind
  have hseek : seekIn (fun c => c = 0 || (c = 13 && c = 10)) memory (p + gap.length + 1) =
      some (p + gap.length + 1 + text.length) := by
    refine seekIn_of_drop hbehind (fun e he => ?_) rfl
    have hne : e ≠ 0 := fun h => hzero (h ▸ he)
    by_cases hcr : e = 13
    · subst hcr
      rfl
    · simp [hne, hcr]
  rw [skipwhiteIn_of_drop hdrop hgap (Or.inl rfl), if_neg (by decide), if_pos rfl, hseek,
    Option.bind_some, skipwhiteIn_of_drop hend isGap_nil (Or.inr rfl)]
  rfl

/-- The first byte of the memory is no zero, if there is a gap or if another byte is behind it. -/
theorem exists_start (hdrop : memory.drop p = gap ++ c :: rest) (hgap : IsGap gap)
    (hc : gap = [] → c ≠ 0) : ∃ e, memory[p]? = some e ∧ e ≠ 0 := by
  cases gap with
  | nil => exact ⟨c, head_of_drop hdrop, hc rfl⟩
  | cons e gap =>
    refine ⟨e, head_of_drop hdrop, ?_⟩
    rintro rfl
    exact absurd (hgap 0 List.mem_cons_self).2 (by decide)

/-- A call at a comment or at a line end. -/
theorem parseTokenIn_ended (hdrop : memory.drop p = line ++ [0]) (hzero : 0 ∉ line)
    (hended : Ended line) : parseTokenIn memory p = some none := by
  obtain ⟨gap, rest, rfl, hgap, hrest⟩ := hended
  unfold parseTokenIn
  cases rest with
  | nil =>
    rw [List.append_nil] at hdrop
    have hend : (isLineEnd 0) = true := rfl
    have hskip : skipwhiteIn memory (memory.length + 1) p = some none :=
      (skipwhiteIn_of_drop hdrop hgap (Or.inr hend)).trans (if_pos hend)
    cases gap with
    | nil =>
      rw [head_of_drop hdrop]
      rfl
    | cons e gap =>
      obtain ⟨e, he, hne⟩ := exists_start hdrop hgap nofun
      rw [he, Option.bind_some, if_neg hne, hskip]
      rfl
  | cons c rest =>
    have hc : c ≠ 0 := by
      rintro rfl
      exact hzero (by simp)
    rw [List.append_assoc, List.cons_append] at hdrop
    obtain ⟨e, he, hne⟩ := exists_start hdrop hgap fun _ => hc
    rw [he, Option.bind_some, if_neg hne]
    rcases hrest c rfl with hend | rfl
    · rw [skipwhiteIn_of_drop hdrop hgap (Or.inr hend), if_pos hend]
      rfl
    · have hpos : 0 < memory.length := by
        have hlen := congrArg List.length hdrop
        simp only [List.length_drop, List.length_append, List.length_cons] at hlen
        omega
      obtain ⟨fuel, hfuel⟩ := Nat.exists_eq_add_one_of_ne_zero (Nat.ne_of_gt hpos)
      rw [hfuel, skipwhiteIn_comment hdrop hgap fun h => hzero (by simp [h])]
      rfl

/-- A call where a token begins, behind a gap. -/
theorem parseTokenIn_of_drop (hdrop : memory.drop p = gap ++ c :: rest) (hgap : IsGap gap)
    (hblank : isBlank c = false) (hhash : c ≠ ascii '#') :
    parseTokenIn memory p = (tokenIn memory c (p + gap.length)).map some := by
  have hend : ¬ isLineEnd c = true := fun h => by
    rw [isBlank_of_isLineEnd h] at hblank
    exact Bool.noConfusion hblank
  obtain ⟨e, he, hne⟩ := exists_start hdrop hgap fun _ h => hend (h ▸ rfl)
  rw [parseTokenIn, he, Option.bind_some, if_neg hne,
    skipwhiteIn_of_drop hdrop hgap (Or.inl hblank), if_neg hend, if_neg hhash]
  rfl

/-- A call takes a token of the line. -/
theorem parseTokenIn_token (hdrop : memory.drop p = gap ++ (text ++ line) ++ [0])
    (hgap : IsGap gap) (htoken : IsToken text token line.head?) (hzero : 0 ∉ text) :
    parseTokenIn memory p = some (some (token, p + gap.length + text.length)) := by
  rw [List.append_assoc, List.append_assoc] at hdrop
  have hbehind := drop_of_drop hdrop
  cases htoken with
  | quoted hquote =>
    simp only [List.cons_append, List.append_assoc] at hdrop hbehind
    have hafter := drop_succ_of_drop hbehind
    have hseek : seekIn (fun c => c = ascii '"' || c = 0) memory (p + gap.length + 1) =
        some (p + gap.length + 1 + token.length) := by
      refine seekIn_of_drop hafter (fun e he => ?_) rfl
      have hne : e ≠ ascii '"' ∧ e ≠ 0 :=
        ⟨fun h => hquote (h ▸ he), fun h => hzero (h ▸ by simp [he])⟩
      simp [hne]
    rw [parseTokenIn_of_drop hdrop hgap rfl (by decide), tokenIn, if_pos rfl, hseek,
      Option.map_some, slice_of_drop hafter]
    simp only [Option.map_some, List.length_cons, List.length_append, List.length_nil]
    congr 3
    omega
  | @sign c _ hc =>
    have hsign : isBlank c = false ∧ c ≠ ascii '#' ∧ c ≠ ascii '"' := by
      rcases hc with rfl | rfl
      · exact ⟨rfl, by decide, by decide⟩
      · exact ⟨rfl, by decide, by decide⟩
    rw [parseTokenIn_of_drop hdrop hgap hsign.1 hsign.2.1, tokenIn, if_neg hsign.2.2, if_pos hc]
    rfl
  | @word c w _ hquote hword hnext =>
    have hc := hword c List.mem_cons_self
    have hne : c ≠ ascii '#' ∧ ¬ (c = ascii '=' ∨ c = ascii ',') := by
      simp only [isWord, Bool.and_eq_true, decide_eq_true_eq] at hc
      exact ⟨hc.1.2, not_or.mpr ⟨hc.2, hc.1.1.2⟩⟩
    have hseek : seekIn (fun c => !isWord c) memory (p + gap.length) =
        some (p + gap.length + (c :: w).length) := by
      have hstop : ∃ e rest, line ++ [0] = e :: rest ∧ isWord e = false := by
        cases line with
        | nil => exact ⟨0, [], rfl, rfl⟩
        | cons e line => exact ⟨e, line ++ [0], rfl, hnext e rfl⟩
      obtain ⟨e, rest, hrest, he⟩ := hstop
      rw [hrest] at hbehind
      exact seekIn_of_drop hbehind (fun e he => by simp [hword e he]) (by simp [he])
    have hslice := slice_of_drop hbehind
    rw [List.cons_append] at hdrop
    rw [parseTokenIn_of_drop hdrop hgap (not_isBlank_of_isWord hc) hne.1, tokenIn, if_neg hquote,
      if_neg hne.2, hseek, Option.map_some, hslice]
    rfl

/-- A call at a quote that is not closed returns the position behind the zero. -/
theorem parseTokenIn_unclosed (hdrop : memory.drop p = gap ++ ascii '"' :: text ++ [0])
    (hgap : IsGap gap) (hquote : ascii '"' ∉ text) (hzero : 0 ∉ text) :
    parseTokenIn memory p = some (some (text, p + gap.length + text.length + 2)) := by
  rw [List.append_assoc, List.cons_append] at hdrop
  have hafter := drop_succ_of_drop (drop_of_drop hdrop)
  have hseek : seekIn (fun c => c = ascii '"' || c = 0) memory (p + gap.length + 1) =
      some (p + gap.length + 1 + text.length) := by
    refine seekIn_of_drop hafter (fun e he => ?_) rfl
    have hne : e ≠ ascii '"' ∧ e ≠ 0 := ⟨fun h => hquote (h ▸ he), fun h => hzero (h ▸ he)⟩
    simp [hne]
  rw [parseTokenIn_of_drop hdrop hgap rfl (by decide), tokenIn, if_pos rfl, hseek,
    Option.map_some, slice_of_drop hafter]
  simp only [Option.map_some]
  congr 3
  omega

/-- A line goes on in one of these ways. -/
theorem line_cases (line : List UInt8) :
    Ended line ∨
      (∃ gap text token rest, line = gap ++ (text ++ rest) ∧ IsGap gap ∧
        IsToken text token rest.head?) ∨
      Unclosed line := by
  obtain ⟨gap, behind, rfl, hgap, hbehind⟩ :=
    exists_span (fun c => isBlank c = true ∧ isLineEnd c = false) line
  cases behind with
  | nil => exact Or.inl ⟨gap, [], rfl, hgap, fun c hc => absurd hc (by simp)⟩
  | cons c behind =>
    have hc := hbehind c rfl
    by_cases hended : isLineEnd c = true ∨ c = ascii '#'
    · refine Or.inl ⟨gap, c :: behind, rfl, hgap, fun e he => ?_⟩
      cases he
      exact hended
    · rw [not_or, Bool.not_eq_true] at hended
      have hblank : isBlank c = false := by simpa [hended.1] using hc
      refine Or.inr ?_
      by_cases hquote : c = ascii '"'
      · subst hquote
        obtain ⟨token, rest, rfl, htoken, hrest⟩ := exists_span (fun c => c ≠ ascii '"') behind
        have hnot : ascii '"' ∉ token := fun h => htoken _ h rfl
        cases rest with
        | nil =>
          rw [List.append_nil]
          exact Or.inr ⟨gap, token, rfl, hgap, hnot⟩
        | cons d rest =>
          obtain rfl : d = ascii '"' := not_not.mp (hrest d rfl)
          exact Or.inl ⟨gap, _, token, rest, by simp, hgap, .quoted hnot⟩
      · refine Or.inl ?_
        by_cases hsign : c = ascii '=' ∨ c = ascii ','
        · exact ⟨gap, [c], [c], behind, rfl, hgap, .sign hsign⟩
        · rw [not_or] at hsign
          have hword : isWord c = true := by simp [isWord, hblank, hsign, hended.2]
          obtain ⟨w, rest, rfl, hw, hrest⟩ := exists_span (fun c => isWord c = true) behind
          refine ⟨gap, c :: w, c :: w, rest, rfl, hgap, .word hquote (fun e he => ?_) fun e he => ?_⟩
          · rcases List.mem_cons.mp he with rfl | he
            · exact hword
            · exact hw e he
          · exact Bool.not_eq_true _ ▸ hrest e he

/-! # What stands behind the line -/

/-- Where `skipwhite` comes to. -/
theorem skipwhiteIn_eq_some {r : Option (UInt8 × Nat)}
    (h : skipwhiteIn memory fuel p = some r) :
    ∃ gap c rest, memory.drop p = gap ++ c :: rest ∧ IsGap gap ∧
      (r = none ∧ (isLineEnd c = true ∨ c = ascii '#') ∨
        r = some (c, p + gap.length) ∧ isLineEnd c = false ∧ c ≠ ascii '#' ∧ isBlank c = false) := by
  cases fuel with
  | zero => cases h
  | succ fuel =>
    rw [skipwhiteIn] at h
    obtain ⟨q, hseek, h⟩ := Option.bind_eq_some_iff.mp h
    obtain ⟨gap, c, rest, hdrop, rfl, hgap, hstop⟩ := exists_of_seekIn hseek
    have hgap : IsGap gap := fun e he => by simpa using hgap e he
    rw [getElem?_of_drop hdrop, Option.bind_some] at h
    refine ⟨gap, c, rest, hdrop, hgap, ?_⟩
    split at h
    · next hend =>
      cases h
      exact Or.inl ⟨rfl, Or.inl hend⟩
    · next hend =>
      split at h
      · next hhash =>
        -- the comment ends at a zero
        obtain ⟨q, hseek, h⟩ := Option.bind_eq_some_iff.mp h
        obtain ⟨text, d, rest', hdrop', rfl, -, hd⟩ := exists_of_seekIn hseek
        have hzero : d = 0 := by
          by_contra hne
          have hboth : d = 13 ∧ d = 10 := by simpa [hne] using hd
          exact absurd (hboth.1.symm.trans hboth.2) (by decide)
        subst hzero
        cases fuel with
        | zero => cases h
        | succ fuel =>
          have hstart : memory.drop (p + gap.length + 1 + text.length) = [] ++ 0 :: rest' :=
            drop_of_drop hdrop'
          rw [skipwhiteIn_of_drop hstart isGap_nil (Or.inr rfl)] at h
          cases h
          exact Or.inl ⟨rfl, Or.inr hhash⟩
      · next hhash =>
        cases h
        rw [Bool.not_eq_true] at hend
        exact Or.inr ⟨rfl, hend, hhash, by simpa [hend] using hstop⟩

theorem takeWhile_of_stop {f : UInt8 → Bool} (htext : ∀ e ∈ text, f e = true) (hc : f c = false)
    (rest : List UInt8) :
    (text ++ c :: rest).takeWhile f = text ∧ (text ++ c :: rest).dropWhile f = c :: rest := by
  rw [List.takeWhile_append_of_pos htext, List.dropWhile_append_of_pos htext,
    List.takeWhile_cons_of_neg (by simp [hc]), List.dropWhile_cons_of_neg (by simp [hc]),
    List.append_nil]
  exact ⟨rfl, rfl⟩

theorem parseToken_cons (hend : isLineEnd c = false) (hhash : c ≠ ascii '#')
    (hblank : isBlank c = false) :
    parseToken (c :: rest) =
      if c = ascii '"' then
        let token := rest.takeWhile fun c => c ≠ ascii '"' ∧ c ≠ 0
        some (token, rest.drop (token.length + 1))
      else if c = ascii '=' ∨ c = ascii ',' then some ([c], rest)
      else some ((c :: rest).takeWhile isWord, (c :: rest).dropWhile isWord) := by
  unfold parseToken
  rw [List.dropWhile_cons_of_neg (by simp [hblank])]
  simp only
  rw [if_neg (by simp [hend, hhash])]

theorem parseToken_ends (hends : isLineEnd c = true ∨ c = ascii '#') :
    parseToken (c :: rest) = none := by
  have hstop : ¬ (isBlank c && !isLineEnd c) = true := by
    rcases hends with hend | rfl
    · simp [hend]
    · decide
  unfold parseToken
  rw [List.dropWhile_cons, if_neg hstop]
  exact if_pos hends

theorem tokenIn_agrees (hdrop : memory.drop p = c :: rest) (hend : isLineEnd c = false)
    (hhash : c ≠ ascii '#') (hblank : isBlank c = false) (h : tokenIn memory c p = some (token, q))
    (behind : List UInt8) :
    parseToken (c :: (rest ++ behind)) = some (token, (memory ++ behind).drop q) ∧ p < q := by
  rw [parseToken_cons hend hhash hblank]
  unfold tokenIn at h
  split at h
  · next hquote =>
    rw [if_pos hquote]
    obtain ⟨q', hseek, heq⟩ := Option.map_eq_some_iff.mp h
    obtain ⟨text, d, rest', hdrop', rfl, htext, hd⟩ := exists_of_seekIn hseek
    rw [slice_of_drop hdrop'] at heq
    obtain ⟨rfl, rfl⟩ := Prod.mk.inj heq
    have hrest : rest ++ behind = text ++ d :: (rest' ++ behind) := by
      rw [← drop_succ_of_drop hdrop, hdrop', List.append_assoc, List.cons_append]
    have htake : (text ++ d :: (rest' ++ behind)).takeWhile (fun c => c ≠ ascii '"' ∧ c ≠ 0) =
        text := by
      refine (takeWhile_of_stop (fun e he => ?_) ?_ _).1
      · simpa using htext e he
      · simpa [or_iff_not_imp_left] using hd
    have hbehind := drop_succ_of_drop (drop_of_drop (drop_append_of_drop hdrop' behind))
    simp only [hrest, htake]
    rw [hbehind, List.drop_length_add_append]
    exact ⟨rfl, by omega⟩
  · next hquote =>
    rw [if_neg hquote]
    split at h
    · next hsign =>
      cases h
      have hempty : memory.drop p = [] ++ c :: rest := hdrop
      have hbehind := drop_succ_of_drop (drop_append_of_drop hempty behind)
      rw [if_pos hsign, hbehind]
      exact ⟨rfl, by omega⟩
    · next hsign =>
      rw [if_neg hsign]
      obtain ⟨q', hseek, heq⟩ := Option.map_eq_some_iff.mp h
      obtain ⟨text, d, rest', hdrop', rfl, htext, hd⟩ := exists_of_seekIn hseek
      rw [slice_of_drop hdrop'] at heq
      obtain ⟨rfl, rfl⟩ := Prod.mk.inj heq
      have hrest : c :: (rest ++ behind) = text ++ d :: (rest' ++ behind) := by
        rw [← List.cons_append, ← hdrop, hdrop', List.append_assoc, List.cons_append]
      have hword : ∀ e ∈ text, isWord e = true := fun e he => by simpa using htext e he
      have hstop : isWord d = false := by simpa using hd
      obtain ⟨htake, hleft⟩ := takeWhile_of_stop hword hstop (rest' ++ behind)
      rw [hrest, htake, hleft, drop_of_drop (drop_append_of_drop hdrop' behind)]
      refine ⟨rfl, ?_⟩
      cases text with
      | nil =>
        -- the first byte belongs to the word
        cases hdrop.symm.trans hdrop'
        rw [not_or] at hsign
        simp [isWord, hblank, hhash, hsign] at hstop
      | cons e text => simp

/-- A call that stays in the line is the same, whatever stands behind the line. -/
theorem parseTokenIn_agrees {r : Option (List UInt8 × Nat)} (h : parseTokenIn memory p = some r)
    (behind : List UInt8) :
    parseToken ((memory ++ behind).drop p) =
        r.map (fun r => (r.1, (memory ++ behind).drop r.2)) ∧
      p < memory.length ∧ ∀ token q, r = some (token, q) → p < q := by
  obtain ⟨e, he, h⟩ := Option.bind_eq_some_iff.mp h
  have hlt := (List.getElem?_eq_some_iff.mp he).1
  split at h
  · next hzero =>
    cases h
    subst hzero
    have hdrop : memory.drop p = [] ++ 0 :: memory.drop (p + 1) := by
      rw [List.drop_eq_getElem_cons hlt, (List.getElem?_eq_some_iff.mp he).2]
      rfl
    rw [drop_append_of_drop hdrop]
    exact ⟨rfl, hlt, nofun⟩
  · next hne =>
    obtain ⟨r', hskip, h⟩ := Option.bind_eq_some_iff.mp h
    obtain ⟨gap, c, rest, hdrop, hgap, hcases⟩ := skipwhiteIn_eq_some hskip
    rw [drop_append_of_drop hdrop, parseToken_gap hgap]
    rcases hcases with ⟨rfl, hends⟩ | ⟨rfl, hend, hhash, hblank⟩
    · cases h
      exact ⟨parseToken_ends hends, hlt, nofun⟩
    · obtain ⟨⟨token, q⟩, htoken, rfl⟩ := Option.map_eq_some_iff.mp h
      obtain ⟨hparse, hq⟩ := tokenIn_agrees (drop_of_drop hdrop) hend hhash hblank htoken behind
      refine ⟨hparse, hlt, fun token' q' heq => ?_⟩
      cases heq
      omega

/-! # Where a line leaves a quote open -/

variable {allowed : List (List UInt8) → Prop}

/-- The first call in a line alone. -/
theorem Unclosed.parse (h : Unclosed line) (hzero : 0 ∉ line) :
    ∃ token, parseTokenIn (line ++ [0]) 0 = some (some (token, line.length + 1)) := by
  obtain ⟨gap, text, rfl, hgap, hquote⟩ := h
  refine ⟨text, (parseTokenIn_unclosed rfl hgap hquote fun h => hzero (by simp [h])).trans ?_⟩
  simp only [List.length_append, List.length_cons]
  congr 3
  omega

theorem not_leavesOpen_ended (h : Ended line) (hzero : 0 ∉ line) : ¬ LeavesOpen allowed line := by
  rintro ⟨tokens, rest, htokens, -, hunclosed⟩
  have hparse : parseTokenIn (line ++ [0]) 0 = some none := parseTokenIn_ended rfl hzero h
  cases htokens with
  | nil =>
    obtain ⟨token, htoken⟩ := hunclosed.parse hzero
    rw [hparse] at htoken
    cases htoken
  | cons hgap htoken _ =>
    rw [parseTokenIn_token rfl hgap htoken fun h => hzero (by simp [h])] at hparse
    cases hparse

theorem leavesOpen_unclosed_iff (h : Unclosed line) (hzero : 0 ∉ line) :
    LeavesOpen allowed line ↔ allowed [] := by
  constructor
  · rintro ⟨tokens, rest, htokens, hallowed, -⟩
    cases htokens with
    | nil => exact hallowed
    | cons hgap htoken _ =>
      -- a token would end inside of the line
      obtain ⟨token, hparse⟩ := h.parse hzero
      rw [parseTokenIn_token rfl hgap htoken fun h => hzero (by simp [h])] at hparse
      have hend := congrArg Prod.snd (Option.some.inj (Option.some.inj hparse))
      simp only [List.length_append] at hend
      omega
  · exact fun hallowed => ⟨[], line, .nil, hallowed, h⟩

theorem leavesOpen_token_iff (hgap : IsGap gap) (htoken : IsToken text token line.head?)
    (hzero : 0 ∉ gap ++ (text ++ line)) :
    LeavesOpen allowed (gap ++ (text ++ line)) ↔
      LeavesOpen (fun tokens => allowed (token :: tokens)) line := by
  have hparse : parseTokenIn (gap ++ (text ++ line) ++ [0]) 0 =
      some (some (token, 0 + gap.length + text.length)) :=
    parseTokenIn_token rfl hgap htoken fun h => hzero (by simp [h])
  constructor
  · rintro ⟨tokens, rest, htokens, hallowed, hunclosed⟩
    generalize hwhole : gap ++ (text ++ line) = whole at htokens hparse hzero
    cases htokens with
    | nil =>
      obtain ⟨token', hparse'⟩ := hunclosed.parse hzero
      rw [hparse] at hparse'
      have hend := congrArg Prod.snd (Option.some.inj (Option.some.inj hparse'))
      simp only [← hwhole, List.length_append] at hend
      omega
    | @cons gap' text' token' line' _ tokens hgap' htoken' htokens =>
      rw [parseTokenIn_token rfl hgap' htoken' fun h => hzero (by simp [h])] at hparse
      simp only [Option.some.injEq, Prod.mk.injEq, Nat.zero_add] at hparse
      obtain ⟨rfl, hend⟩ := hparse
      have hline : line' = line := by
        rw [← List.append_assoc, ← List.append_assoc] at hwhole
        refine (List.append_inj_right hwhole ?_).symm
        rw [List.length_append, List.length_append, hend]
      subst hline
      exact ⟨tokens, rest, htokens, hallowed, hunclosed⟩
  · rintro ⟨tokens, rest, htokens, hallowed, hunclosed⟩
    exact ⟨token :: tokens, rest, .cons hgap htoken htokens, hallowed, hunclosed⟩

theorem TokenSeq.suffix {tokens : List (List UInt8)} (h : TokenSeq line tokens rest) : rest <:+ line := by
  induction h with
  | nil => exact List.suffix_rfl
  | cons _ _ _ ih => exact ih.trans (List.suffix_append_of_suffix (List.suffix_append ..))

/-- A line without quotes leaves none open. -/
theorem not_leavesOpen_of_notMem (h : ascii '"' ∉ line) : ¬ LeavesOpen allowed line := by
  rintro ⟨tokens, rest, htokens, -, gap, text, rfl, -, -⟩
  exact h (htokens.suffix.mem (by simp))

theorem IsToken.length_pos {next : Option UInt8} (h : IsToken text token next) :
    0 < text.length := by
  cases h with
  | quoted => simp
  | sign => simp
  | word => simp

/-! # The loops -/

namespace Config

/-- `p` is a position in the line, and this is what the line goes on with. -/
structure At (whole : List UInt8) (p : Nat) (line : List UInt8) : Prop where
  drop : (whole ++ [0]).drop p = line ++ [0]
  length : p + line.length = whole.length
  nonzero : 0 ∉ line

variable {whole : List UInt8} {var var' : ConfigVar} {positions : List Nat}

theorem at_start (hzero : 0 ∉ whole) : At whole 0 whole :=
  ⟨rfl, Nat.zero_add _, hzero⟩

theorem At.next (h : At whole p (gap ++ (text ++ line))) :
    At whole (p + gap.length + text.length) line := by
  obtain ⟨hdrop, hlength, hzero⟩ := h
  refine ⟨?_, ?_, fun h => hzero (by simp [h])⟩
  · rw [List.append_assoc, List.append_assoc] at hdrop
    exact drop_of_drop (drop_of_drop hdrop)
  · simp only [List.length_append] at hlength
    omega

theorem At.parse_unclosed (h : At whole p line) (hunclosed : Unclosed line) :
    ∃ token, parseTokenIn (whole ++ [0]) p = some (some (token, whole.length + 1)) := by
  obtain ⟨hdrop, hlength, hzero⟩ := h
  obtain ⟨gap, text, rfl, hgap, hquote⟩ := hunclosed
  refine ⟨text, (parseTokenIn_unclosed hdrop hgap hquote fun h => hzero (by simp [h])).trans ?_⟩
  simp only [List.length_append, List.length_cons] at hlength
  congr 3
  omega

theorem At.parse_token (h : At whole p (gap ++ (text ++ line))) (hgap : IsGap gap)
    (htoken : IsToken text token line.head?) :
    parseTokenIn (whole ++ [0]) p = some (some (token, p + gap.length + text.length)) :=
  parseTokenIn_token h.drop hgap htoken fun hmem => h.nonzero (by simp [hmem])

theorem At.parse_ended (h : At whole p line) (hended : Ended line) :
    parseTokenIn (whole ++ [0]) p = some none :=
  parseTokenIn_ended h.drop h.nonzero hended

/-- The loop over the values stays in the line exactly if it does not come to a quote that is not
closed. -/
theorem readValuesIn_iff (h : At whole p line) (var : ConfigVar) :
    (∃ fuel positions var', readValuesIn (whole ++ [0]) fuel p var = some (positions, var') ∧
      ∀ q ∈ positions, q ≤ whole.length) ↔ ¬ LeavesOpen (fun _ => True) line := by
  induction hn : line.length using Nat.strongRecOn generalizing line p var with
  | ind n ih =>
    rcases line_cases line with hended | ⟨gap, text, token, rest, rfl, hgap, htoken⟩ | hunclosed
    · refine iff_of_true ⟨1, [], var, ?_, nofun⟩ (not_leavesOpen_ended hended h.nonzero)
      rw [readValuesIn, h.parse_ended hended]
      rfl
    · have hrest := h.next
      have hshort : rest.length < n := by
        have hpos := htoken.length_pos
        simp only [List.length_append] at hn
        omega
      rw [leavesOpen_token_iff hgap htoken h.nonzero, ← ih _ hshort hrest
        (if token.head? = some (ascii ',') then var else var.append token) rfl]
      constructor
      · rintro ⟨fuel, positions, var', hrun, hpositions⟩
        cases fuel with
        | zero => cases hrun
        | succ fuel =>
          rw [readValuesIn, h.parse_token hgap htoken, Option.bind_some] at hrun
          obtain ⟨⟨positions', var''⟩, hrun', heq⟩ := Option.map_eq_some_iff.mp hrun
          cases heq
          exact ⟨fuel, positions', _, hrun', fun q hq =>
            hpositions q (List.mem_cons_of_mem _ hq)⟩
      · rintro ⟨fuel, positions, var', hrun, hpositions⟩
        refine ⟨fuel + 1, (p + gap.length + text.length) :: positions, var', ?_, fun q hq => ?_⟩
        · rw [readValuesIn, h.parse_token hgap htoken, Option.bind_some]
          exact Option.map_eq_some_iff.mpr ⟨_, hrun, rfl⟩
        · rcases List.mem_cons.mp hq with rfl | hq
          · exact Nat.le.intro hrest.length
          · exact hpositions q hq
    · refine iff_of_false ?_ (not_not.mpr ((leavesOpen_unclosed_iff hunclosed h.nonzero).mpr trivial))
      rintro ⟨fuel, positions, var', hrun, hpositions⟩
      obtain ⟨token, hparse⟩ := h.parse_unclosed hunclosed
      cases fuel with
      | zero => cases hrun
      | succ fuel =>
        rw [readValuesIn, hparse, Option.bind_some] at hrun
        obtain ⟨⟨positions', var''⟩, -, heq⟩ := Option.map_eq_some_iff.mp hrun
        cases heq
        exact absurd (hpositions _ List.mem_cons_self) (by omega)

/-! # The loops with more behind the line -/

/-- The loop over the values is the same, whatever stands behind the line. -/
theorem readValuesIn_agrees {memory : List UInt8}
    (h : readValuesIn memory fuel p var = some (positions, var')) (behind : List UInt8) :
    p + positions.length < memory.length ∧
      ∀ n, positions.length < n → readValues n ((memory ++ behind).drop p) var = var' := by
  induction fuel generalizing p var positions with
  | zero => cases h
  | succ fuel ih =>
    rw [readValuesIn] at h
    obtain ⟨r, hparse, h⟩ := Option.bind_eq_some_iff.mp h
    obtain ⟨hagrees, hlt, hnext⟩ := parseTokenIn_agrees hparse behind
    cases r with
    | none =>
      cases h
      refine ⟨hlt, fun n hn => ?_⟩
      obtain ⟨n, rfl⟩ := Nat.exists_eq_add_one_of_ne_zero (Nat.ne_of_gt hn)
      rw [readValues, hagrees]
      rfl
    | some r =>
      obtain ⟨token, q⟩ := r
      obtain ⟨⟨positions', var''⟩, hrun, heq⟩ := Option.map_eq_some_iff.mp h
      cases heq
      obtain ⟨hlen, hvalues⟩ := ih hrun
      have hq := hnext token q rfl
      simp only [List.length_cons]
      refine ⟨by omega, fun n hn => ?_⟩
      obtain ⟨n, rfl⟩ := Nat.exists_eq_add_one_of_ne_zero (Nat.ne_of_gt (Nat.zero_lt_of_lt hn))
      have hsame := hvalues n (by omega)
      rw [readValues, hagrees]
      simp only [Option.map_some]
      split
      · next hcomma => rwa [if_pos hcomma] at hsame
      · next hcomma => rwa [if_neg hcomma] at hsame

/-- A line whose calls stay in it makes the same of the variables, whatever stands behind it. -/
theorem readLineIn_agrees {memory : List UInt8} {vars : List ConfigVar}
    {result : Option (List ConfigVar)}
    (h : readLineIn fuel vars memory = some (positions, result)) (behind : List UInt8) :
    readLine vars (memory ++ behind) = result := by
  obtain ⟨r, hparse, h⟩ := Option.bind_eq_some_iff.mp h
  obtain ⟨hagrees, -, -⟩ := parseTokenIn_agrees hparse behind
  rw [List.drop_zero] at hagrees
  rw [readLine, hagrees]
  cases r with
  | none =>
    cases h
    rfl
  | some r =>
    obtain ⟨name, p⟩ := r
    obtain ⟨r, hparse, h⟩ := Option.bind_eq_some_iff.mp h
    obtain ⟨hagrees, -, -⟩ := parseTokenIn_agrees hparse behind
    simp only [Option.map_some, hagrees]
    cases r with
    | none =>
      cases h
      rfl
    | some r =>
      obtain ⟨token, q⟩ := r
      simp only at h
      split at h
      · next hassign =>
        obtain ⟨⟨positions', var⟩, hrun, heq⟩ := Option.map_eq_some_iff.mp h
        cases heq
        obtain ⟨hlen, hvalues⟩ := readValuesIn_agrees hrun behind
        simp only [Option.map_some, if_pos hassign]
        rw [hvalues _ (by rw [List.length_drop, List.length_append]; omega)]
      · next hassign =>
        cases h
        simp only [Option.map_some, if_neg hassign]

/-! # Lines that leave no quote open -/

theorem parseTokenIn_behind (whole : List UInt8) :
    parseTokenIn (whole ++ [0]) (whole.length + 1) = none := by
  have hnone : (whole ++ [0])[whole.length + 1]? = none := List.getElem?_eq_none (by simp)
  rw [parseTokenIn, hnone]
  rfl

theorem assigns_cons_cons {name second : List UInt8} {tokens : List (List UInt8)} :
    Assigns (name :: second :: tokens) ↔ second.head? = some (ascii '=') := by
  simp [Assigns]

/-- What is behind the first token. -/
theorem staysInLine_token {name : List UInt8} (h : At whole p line)
    (hname : parseTokenIn (whole ++ [0]) 0 = some (some (name, p))) :
    StaysInLine whole ↔ ¬ LeavesOpen (fun tokens => Assigns (name :: tokens)) line := by
  have hfirst : p ≤ whole.length := Nat.le.intro h.length
  rcases line_cases line with hended | ⟨gap, text, second, rest, rfl, hgap, hsecond⟩ | hunclosed
  · refine iff_of_true (fun vars => ⟨0, [p], none, ?_, fun q hq => ?_⟩)
      (not_leavesOpen_ended hended h.nonzero)
    · rw [readLineIn, hname, Option.bind_some]
      simp only [h.parse_ended hended, Option.bind_some]
    · rw [List.mem_singleton.mp hq]
      exact hfirst
  · have hparse := h.parse_token hgap hsecond
    have hrest := h.next
    have hend : p + gap.length + text.length ≤ whole.length := Nat.le.intro hrest.length
    rw [leavesOpen_token_iff hgap hsecond h.nonzero]
    simp only [assigns_cons_cons]
    by_cases hassign : second.head? = some (ascii '=')
    · simp only [hassign]
      rw [← readValuesIn_iff hrest ⟨name, 0, []⟩]
      constructor
      · intro hstays
        obtain ⟨fuel, positions, result, hrun, hpositions⟩ := hstays []
        rw [readLineIn, hname, Option.bind_some] at hrun
        simp only [hparse, Option.bind_some, if_pos hassign] at hrun
        obtain ⟨⟨positions', var⟩, hrun', heq⟩ := Option.map_eq_some_iff.mp hrun
        cases heq
        exact ⟨fuel, positions', var, hrun', fun q hq => hpositions q (by simp [hq])⟩
      · rintro ⟨fuel, positions, var, hrun, hpositions⟩ vars
        refine ⟨fuel, p :: (p + gap.length + text.length) :: positions, some (vars ++ [var]), ?_,
          fun q hq => ?_⟩
        · rw [readLineIn, hname, Option.bind_some]
          simp only [hparse, Option.bind_some, if_pos hassign, hrun, Option.map_some]
        · rcases List.mem_cons.mp hq with rfl | hq
          · exact hfirst
          · rcases List.mem_cons.mp hq with rfl | hq
            · exact hend
            · exact hpositions q hq
    · -- a syntax error, and no call behind it
      refine iff_of_true (fun vars => ⟨0, [p, p + gap.length + text.length], none, ?_,
        fun q hq => ?_⟩) ?_
      · rw [readLineIn, hname, Option.bind_some]
        simp only [hparse, Option.bind_some, if_neg hassign]
      · rcases List.mem_cons.mp hq with rfl | hq
        · exact hfirst
        · rw [List.mem_singleton.mp hq]
          exact hend
      · rintro ⟨tokens, behind, -, hallowed, -⟩
        exact hassign hallowed
  · refine iff_of_false ?_ (not_not.mpr ((leavesOpen_unclosed_iff hunclosed h.nonzero).mpr nofun))
    intro hstays
    obtain ⟨fuel, positions, result, hrun, hpositions⟩ := hstays []
    obtain ⟨second, hparse⟩ := h.parse_unclosed hunclosed
    rw [readLineIn, hname, Option.bind_some] at hrun
    simp only [hparse, Option.bind_some] at hrun
    split at hrun
    · obtain ⟨⟨positions', var⟩, -, heq⟩ := Option.map_eq_some_iff.mp hrun
      cases heq
      exact absurd (hpositions (whole.length + 1) (by simp)) (by omega)
    · cases hrun
      exact absurd (hpositions (whole.length + 1) (by simp)) (by omega)

/-- The loop of `Init` stays in a line exactly if no quote is left open that it comes to: one in
place of one of the first two tokens, or behind them if the second one is a sign of assignment. -/
theorem staysInLine_iff (hzero : 0 ∉ whole) :
    StaysInLine whole ↔ ¬ LeavesOpen Assigns whole := by
  have hstart := at_start hzero
  rcases line_cases whole with hended | ⟨gap, text, name, rest, rfl, hgap, hname⟩ | hunclosed
  · refine iff_of_true (fun vars => ⟨0, [], some vars, ?_, nofun⟩)
      (not_leavesOpen_ended hended hzero)
    rw [readLineIn, hstart.parse_ended hended]
    rfl
  · rw [leavesOpen_token_iff hgap hname hzero]
    exact staysInLine_token hstart.next (hstart.parse_token hgap hname)
  · refine iff_of_false ?_ (not_not.mpr ((leavesOpen_unclosed_iff hunclosed hzero).mpr nofun))
    intro hstays
    obtain ⟨fuel, positions, result, hrun, -⟩ := hstays []
    obtain ⟨token, hparse⟩ := hstart.parse_unclosed hunclosed
    rw [readLineIn, hparse, Option.bind_some] at hrun
    simp only [parseTokenIn_behind, Option.bind_none] at hrun
    cases hrun

/-- `a=b` -/
theorem staysInLine_oneValue : StaysInLine [97, ascii '=', 98] :=
  (staysInLine_iff (by decide)).mpr (not_leavesOpen_of_notMem (by decide))

/-- `a="b`: the third call returns the position behind the zero. -/
theorem not_staysInLine_openQuote : ¬ StaysInLine [97, ascii '=', ascii '"', 98] := by
  intro hstays
  obtain ⟨fuel, positions, result, hrun, hpositions⟩ := hstays []
  have hname : parseTokenIn ([97, ascii '=', ascii '"', 98] ++ [0]) 0 = some (some ([97], 1)) := rfl
  have hsign : parseTokenIn ([97, ascii '=', ascii '"', 98] ++ [0]) 1 =
      some (some ([ascii '='], 2)) := rfl
  have hvalue : parseTokenIn ([97, ascii '=', ascii '"', 98] ++ [0]) 2 = some (some ([98], 5)) := rfl
  rw [readLineIn, hname, Option.bind_some] at hrun
  simp only [hsign, Option.bind_some, List.head?_cons, if_true] at hrun
  obtain ⟨⟨positions', var⟩, hvalues, heq⟩ := Option.map_eq_some_iff.mp hrun
  cases heq
  cases fuel with
  | zero => cases hvalues
  | succ fuel =>
    rw [readValuesIn, hvalue, Option.bind_some] at hvalues
    obtain ⟨⟨positions'', var'⟩, -, heq⟩ := Option.map_eq_some_iff.mp hvalues
    cases heq
    exact absurd (hpositions 5 (by simp)) (by decide)

end Config

end

end PL
