-- SUMMARY: The configuration file: tokens, variables, and lists of values.
import NetworkEtc.Netfram.Common
import NetworkEtc.Netfram.SockAddr

/-!
# `Config`

A pointer into a buffer is the list of the bytes from it on; behind the end of the list
there are zeros. `Init` is given the bytes of the file.
-/

namespace PL

open Library.Printf Netfram

/-- `*p <= ' '`, a `char` having a sign. -/
def isBlank (c : UInt8) : Bool := c ≤ 32 ∨ 128 ≤ c

/-- Where a line ends for `ParseToken`. -/
def isLineEnd (c : UInt8) : Bool := c = 0 ∨ c = 13 ∨ c = 10

/-- What a word is made of. -/
def isWord (c : UInt8) : Bool := !isBlank c && c ≠ ascii ',' && c ≠ ascii '#' && c ≠ ascii '='

/-- `ParseToken`: the token and where it goes on. A comment runs up to the end of the buffer.
Quoted text without an end goes on behind the zero. -/
def parseToken (p : List UInt8) : Option (List UInt8 × List UInt8) :=
  match p.dropWhile fun c => isBlank c && !isLineEnd c with
  | [] => none
  | c :: p =>
    if isLineEnd c ∨ c = ascii '#' then none
    else if c = ascii '"' then
      let token := p.takeWhile fun c => c ≠ ascii '"' ∧ c ≠ 0
      some (token, p.drop (token.length + 1))
    else if c = ascii '=' ∨ c = ascii ',' then some ([c], p)
    else some ((c :: p).takeWhile isWord, (c :: p).dropWhile isWord)

/-- A variable; `value` holds its values one after the other, each with a zero behind it. -/
structure ConfigVar where
  name : List UInt8
  numelem : Nat
  value : List UInt8
  deriving DecidableEq

namespace ConfigVar

def append (var : ConfigVar) (value : List UInt8) : ConfigVar :=
  { var with numelem := var.numelem + 1, value := var.value ++ value ++ [0] }

/-- `NameEquals`: as much is compared as the name of the variable is long. -/
def nameEquals (var : ConfigVar) (name : List UInt8) : Bool := var.name.isPrefixOf name

/-- `GetIntValue` -/
def getIntValue (var : ConfigVar) : Int32 :=
  let (ret, nread) := strntoint64 (var.value ++ [0]) (Int32.ofNat var.value.length)
  let ret := ret.toInt32
  if nread + 2 = var.value.length then
    match var.value[nread]? with
    | some 75 => ret * 1000 -- K
    | some 77 => ret * 1000 * 1000 -- M
    | some 71 => ret * 1000 * 1000 * 1000 -- G
    | _ => ret
  else ret

/-- The loop of `GetListValue`. -/
def skipValues : Nat → List UInt8 → List UInt8
  | 0, p => p
  | n + 1, p => skipValues n (p.drop ((p.takeWhile (· ≠ 0)).length + 1))

/-- `GetListValue`; `behind` is the memory behind the string `value`. -/
def getListValue (var : ConfigVar) (num : Nat) (behind : List UInt8) : Option (List UInt8) :=
  if var.numelem ≤ num then none else some (skipValues num (var.value ++ 0 :: behind))

end ConfigVar

namespace Config

/-- `GetVar` -/
def getVar (vars : List ConfigVar) (name : List UInt8) : Option ConfigVar :=
  vars.find? (·.nameEquals name)

def getIntValue (vars : List ConfigVar) (name : List UInt8) (defval : Int32) : Int32 :=
  match getVar vars name with
  | some var => var.getIntValue
  | none => defval

def getListNum (vars : List ConfigVar) (name : List UInt8) : Nat :=
  match getVar vars name with
  | some var => var.numelem
  | none => 0

def getListValue (vars : List ConfigVar) (name : List UInt8) (num : Nat) (behind : List UInt8) :
    Option (List UInt8) :=
  (getVar vars name).bind fun var => var.getListValue num behind

/-! # `Init` -/

/-- `fgets` with a buffer of `size` bytes: what it reads and what is left of the file. -/
def fgets (size : Nat) (file : List UInt8) : Option (List UInt8 × List UInt8) :=
  if file = [] then none
  else
    let length := min (size - 1) ((file.takeWhile (· ≠ 10)).length + 1)
    some (file.take length, file.drop length)

/-- The buffer once a line has been read into it. -/
def readInto (buffer line : List UInt8) : List UInt8 :=
  (line ++ 0 :: buffer.drop (line.length + 1)).set 1023 0

/-- The inner loop of `Init`: the values. -/
def readValues : Nat → List UInt8 → ConfigVar → ConfigVar
  | 0, _, var => var
  | fuel + 1, p, var =>
    match parseToken p with
    | none => var
    | some (token, p) =>
      if token.head? = some (ascii ',') then readValues fuel p var
      else readValues fuel p (var.append token)

/-- The body of the loop of `Init`; a syntax error is `none`. -/
def readLine (vars : List ConfigVar) (buffer : List UInt8) : Option (List ConfigVar) :=
  match parseToken buffer with
  | none => some vars
  | some (name, p) =>
    match parseToken p with
    | none => none
    | some (token, p) =>
      if token.head? = some (ascii '=') then
        some (vars ++ [readValues (p.length + 1) p ⟨name, 0, []⟩])
      else none

/-- The loop of `Init`. -/
def readFile : Nat → List UInt8 → List UInt8 → List ConfigVar → Bool × List ConfigVar
  | 0, _, _, vars => (true, vars)
  | fuel + 1, file, buffer, vars =>
    match fgets 1023 file with
    | none => (true, vars)
    | some (line, file) =>
      let buffer := readInto buffer line
      match readLine vars buffer with
      | none => (false, vars)
      | some vars => readFile fuel file buffer vars

/-- `Init`: whether the file could be read, and the variables; `buffer` is what is in the
buffer before. -/
def init (file buffer : List UInt8) : Bool × List ConfigVar :=
  readFile (file.length + 1) file buffer []

end Config

/-! # Tokens -/

/-- Blanks inside a line. -/
def IsGap (l : List UInt8) : Prop := ∀ c ∈ l, isBlank c = true ∧ isLineEnd c = false

/-- A byte that is no `'='` and begins neither a comment nor quoted text. -/
def IsPlain (c : UInt8) : Prop := c ≠ ascii '=' ∧ c ≠ ascii '#' ∧ c ≠ ascii '"'

section

variable {l m p r token w : List UInt8} {c : UInt8}

theorem isGap_nil : IsGap [] := by simp [IsGap]

/-- A line may end in a line feed alone. -/
theorem lineFeed_mem_endings : ([10] : List UInt8) ∈ [[], [10], [13, 10]] := by simp

theorem parseToken_gap (h : IsGap l) : parseToken (l ++ p) = parseToken p := by
  unfold parseToken
  rw [List.dropWhile_append_of_pos]
  intro c hc
  simp [h c hc]

theorem parseToken_blank (h : ∀ c ∈ l, isBlank c = true) : parseToken (l ++ 0 :: r) = none := by
  have hzero : parseToken (0 :: r) = none := rfl
  induction l with
  | nil => exact hzero
  | cons c l ih =>
    have hblank := h c List.mem_cons_self
    cases hend : isLineEnd c with
    | true => simp [parseToken, hend]
    | false =>
      have hgap : IsGap [c] := by simp [IsGap, hblank, hend]
      exact (parseToken_gap hgap).trans (ih fun e he => h e (List.mem_cons_of_mem c he))

theorem isBlank_of_isLineEnd (h : isLineEnd c = true) : isBlank c = true := by
  simp only [isLineEnd, decide_eq_true_eq] at h
  rcases h with rfl | rfl | rfl <;> rfl

theorem parseToken_comma : parseToken (ascii ',' :: p) = some ([ascii ','], p) := rfl

theorem parseToken_equals : parseToken (ascii '=' :: p) = some ([ascii '='], p) := rfl

theorem not_isBlank_of_isWord (h : isWord c = true) : isBlank c = false := by
  simp only [isWord, Bool.and_eq_true, Bool.not_eq_true'] at h
  exact h.1.1.1

theorem not_isLineEnd_of_isWord (h : isWord c = true) : isLineEnd c = false := by
  have hblank := not_isBlank_of_isWord h
  cases hend : isLineEnd c with
  | false => rfl
  | true =>
    rw [isBlank_of_isLineEnd hend] at hblank
    exact hblank

theorem isPlain_of_isWord (h : isWord c = true) (hquote : c ≠ ascii '"') : IsPlain c := by
  simp only [isWord, Bool.and_eq_true, decide_eq_true_eq] at h
  exact ⟨h.2, h.1.2, hquote⟩

/-- A word is one token. -/
theorem parseToken_word (hw : w ≠ []) (hword : ∀ c ∈ w, isWord c = true)
    (hquote : ascii '"' ∉ w) (hp : ∀ c ∈ p.head?, isWord c = false) :
    parseToken (w ++ p) = some (w, p) := by
  cases w with
  | nil => exact absurd rfl hw
  | cons c w =>
    have hc := hword c List.mem_cons_self
    have hblank := not_isBlank_of_isWord hc
    have hend := not_isLineEnd_of_isWord hc
    have hne : c ≠ ascii '#' ∧ c ≠ ascii '=' ∧ c ≠ ascii ',' := by
      simp only [isWord, Bool.and_eq_true, decide_eq_true_eq] at hc
      exact ⟨hc.1.2, hc.2, hc.1.1.2⟩
    have hq : c ≠ ascii '"' := fun heq => hquote (heq ▸ List.mem_cons_self)
    have htake : (c :: w ++ p).takeWhile isWord = c :: w ∧
        (c :: w ++ p).dropWhile isWord = p := by
      rw [List.takeWhile_append_of_pos hword, List.dropWhile_append_of_pos hword]
      cases p with
      | nil => simp
      | cons e p => simp [hp e rfl]
    unfold parseToken
    rw [List.cons_append, List.dropWhile_cons_of_neg (by simp [hblank])]
    simp only
    rw [if_neg (by simp [hend, hne.1]), if_neg hq, if_neg (by simp [hne.2.1, hne.2.2]),
      ← List.cons_append, htake.1, htake.2]

/-- A scan that stops at zeros does not leave the line. -/
theorem dropWhile_line {f : UInt8 → Bool} (hf : f 0 = false) :
    (l ++ 0 :: r).dropWhile f = l.dropWhile f ++ 0 :: r := by
  rw [List.dropWhile_append]
  split
  · next hempty =>
    rw [List.isEmpty_iff.mp hempty, List.dropWhile_cons_of_neg (by simp [hf])]
    rfl
  · rfl

/-- Among plain bytes there is no token `"="`. -/
theorem parseToken_plain (h : ∀ c ∈ l, IsPlain c)
    (hparse : parseToken (l ++ 0 :: r) = some (token, p)) :
    token.head? ≠ some (ascii '=') ∧ ∃ m, m <:+ l ∧ p = m ++ 0 :: r := by
  unfold parseToken at hparse
  rw [dropWhile_line (by rfl)] at hparse
  have hsuffix := List.dropWhile_suffix (l := l) fun c => isBlank c && !isLineEnd c
  have hhead := List.head?_dropWhile_not (fun c => isBlank c && !isLineEnd c) l
  generalize l.dropWhile (fun c => isBlank c && !isLineEnd c) = q at hparse hsuffix hhead
  cases q with
  | nil => exact absurd hparse (by simp [isLineEnd])
  | cons c q =>
    obtain ⟨hequals, hhash, hquote⟩ := h c (hsuffix.mem List.mem_cons_self)
    simp only [List.cons_append] at hparse
    split at hparse
    · exact absurd hparse (by simp)
    · next hnot =>
      rw [not_or] at hnot
      split at hparse
      · next hsep =>
        cases hparse
        refine ⟨by simpa using hequals, q, (List.suffix_cons c q).trans hsuffix, rfl⟩
      · next hsep =>
        rw [not_or] at hsep
        have hblank : isBlank c = false := by simpa [hnot.1] using hhead
        have hword : isWord c = true := by simp [isWord, hblank, hsep.2, hhash, hequals]
        rw [← List.cons_append, dropWhile_line (by rfl)] at hparse
        cases hparse
        refine ⟨?_, _, (List.dropWhile_suffix _).trans hsuffix, rfl⟩
        rw [List.cons_append, List.takeWhile_cons_of_pos hword]
        simpa using hequals

/-- A byte that is no blank begins a token, if the line has not ended before it. -/
theorem parseToken_isSome (hl : ∀ c ∈ l, IsPlain c) (hend : ∀ c ∈ l, isLineEnd c = false)
    (hc : ∃ c ∈ l, isBlank c = false) : parseToken (l ++ p) ≠ none := by
  induction l with
  | nil =>
    obtain ⟨c, hc, -⟩ := hc
    exact absurd hc List.not_mem_nil
  | cons e l ih =>
    have he := hend e List.mem_cons_self
    cases hblank : isBlank e with
    | true =>
      have hgap : IsGap [e] := by simp [IsGap, hblank, he]
      rw [List.cons_append, ← List.singleton_append, parseToken_gap hgap]
      apply ih (fun c hc => hl c (List.mem_cons_of_mem e hc))
        fun c hc => hend c (List.mem_cons_of_mem e hc)
      obtain ⟨c, hcl, hcb⟩ := hc
      rcases List.mem_cons.mp hcl with rfl | hcl
      · rw [hblank] at hcb
        exact Bool.noConfusion hcb
      · exact ⟨c, hcl, hcb⟩
    | false =>
      obtain ⟨-, hhash, hquote⟩ := hl e List.mem_cons_self
      unfold parseToken
      rw [List.cons_append, List.dropWhile_cons_of_neg (by simp [hblank])]
      simp only
      rw [if_neg (by simp [he, hhash]), if_neg hquote]
      split <;> simp

theorem isPlain_of_isBlank (h : isBlank c = true) : IsPlain c := by
  simp only [isBlank, decide_eq_true_eq, UInt8.le_iff_toNat_le] at h
  change c.toNat ≤ 32 ∨ 128 ≤ c.toNat at h
  simp only [IsPlain, ne_eq, ← UInt8.toNat_inj]
  change c.toNat ≠ 61 ∧ c.toNat ≠ 35 ∧ c.toNat ≠ 34
  omega

theorem isWord_eq_false (h : isBlank c = true) : isWord c = false := by simp [isWord, h]

/-- What follows a gap is no part of the word before it. -/
theorem IsGap.head_append (h : IsGap l) (hr : ∀ c ∈ r.head?, isWord c = false) :
    ∀ c ∈ (l ++ r).head?, isWord c = false := by
  cases l with
  | nil => exact hr
  | cons e l =>
    intro c hc
    cases hc
    exact isWord_eq_false (h e List.mem_cons_self).1

theorem IsGap.plain (h : IsGap l) (hc : c ∈ l) : IsPlain c ∧ isLineEnd c = false :=
  ⟨isPlain_of_isBlank (h c hc).1, (h c hc).2⟩

/-! # Lines -/

namespace Config

variable {vars : List ConfigVar} {buffer line file : List UInt8} {fuel : Nat}

/-- A line without `"="` is a syntax error unless it is blank. -/
theorem readLine_plain (hl : ∀ c ∈ l, IsPlain c) (hend : ∀ c ∈ l, isLineEnd c = false)
    (hc : ∃ c ∈ l, isBlank c = false) (hm : ∀ c ∈ m, isBlank c = true) :
    readLine vars (l ++ m ++ 0 :: r) = none := by
  have hplain : ∀ c ∈ l ++ m, IsPlain c := by
    intro c hc
    rcases List.mem_append.mp hc with hc | hc
    · exact hl c hc
    · exact isPlain_of_isBlank (hm c hc)
  unfold readLine
  split
  · next hnone =>
    rw [List.append_assoc] at hnone
    exact absurd hnone (parseToken_isSome hl hend hc)
  · next name p hname =>
    obtain ⟨-, q, hq, rfl⟩ := parseToken_plain hplain hname
    split
    · rfl
    · next token p' htoken =>
      obtain ⟨hne, -⟩ := parseToken_plain (fun c hc => hplain c (hq.mem hc)) htoken
      rw [if_neg hne]

theorem readInto_eq (buffer : List UInt8) (hlen : line.length ≤ 1022) :
    ∃ r, readInto buffer line = line ++ 0 :: r := by
  obtain ⟨n, hn⟩ : ∃ n, 1023 - line.length = n + 1 := ⟨1022 - line.length, by omega⟩
  refine ⟨(buffer.drop (line.length + 1)).set n 0, ?_⟩
  unfold readInto
  rw [List.set_append_right _ _ (by omega), hn, List.set_cons_succ]

/-- `fgets` takes a byte at least, and 1022 at most. -/
theorem fgets_eq (hfile : file ≠ []) : ∃ n, 1 ≤ n ∧ n ≤ 1022 ∧
    (∀ k ≤ 1022, (∀ c ∈ file.take k, c ≠ 10) → k ≤ file.length → k ≤ n) ∧
    fgets 1023 file = some (file.take n, file.drop n) := by
  refine ⟨_, ?_, ?_, ?_, if_neg hfile⟩
  · omega
  · omega
  · intro k hk hline hle
    have hsplit : (file.take k ++ file.drop k).takeWhile (· ≠ 10) =
        file.take k ++ (file.drop k).takeWhile (· ≠ 10) :=
      List.takeWhile_append_of_pos (by simpa using hline)
    rw [List.take_append_drop] at hsplit
    have hpre : file.take k <+: file.takeWhile (· ≠ 10) := by
      rw [hsplit]
      exact List.prefix_append _ _
    have hlength := hpre.length_le
    rw [List.length_take, min_eq_left hle] at hlength
    omega

/-- Blank lines are passed over. -/
theorem readFile_blank (h : ∀ c ∈ file, isBlank c = true) :
    readFile fuel file buffer vars = (true, vars) := by
  induction fuel generalizing file buffer with
  | zero => rfl
  | succ fuel ih =>
    unfold readFile
    rcases eq_or_ne file [] with rfl | hfile
    · rfl
    · obtain ⟨n, -, hn, -, hgets⟩ := fgets_eq hfile
      obtain ⟨r, hr⟩ := readInto_eq buffer ((List.length_take_le n file).trans hn)
      rw [hgets]
      simp only [hr]
      have hline : readLine vars (file.take n ++ 0 :: r) = some vars := by
        unfold readLine
        rw [parseToken_blank fun c hc => h c (List.mem_of_mem_take hc)]
      rw [hline]
      exact ih fun c hc => h c (List.mem_of_mem_drop hc)

/-- The rest of a line is a syntax error, unless it is blank. -/
theorem readFile_plain (hl : ∀ c ∈ l, IsPlain c) (hend : ∀ c ∈ l, isLineEnd c = false)
    (hc : ∃ c ∈ l, isBlank c = false) (hm : ∀ c ∈ m, isBlank c = true)
    (hfuel : (l ++ m).length < fuel) : (readFile fuel (l ++ m) buffer vars).1 = false := by
  induction fuel generalizing l m buffer with
  | zero => exact absurd hfuel (Nat.not_lt_zero _)
  | succ fuel ih =>
    obtain ⟨c, hcl, hcb⟩ := hc
    have hfile : l ++ m ≠ [] := by
      intro hnil
      rw [(List.append_eq_nil_iff.mp hnil).1] at hcl
      exact absurd hcl List.not_mem_nil
    obtain ⟨n, hpos, hn, -, hgets⟩ := fgets_eq hfile
    obtain ⟨r, hr⟩ := readInto_eq buffer ((List.length_take_le n (l ++ m)).trans hn)
    unfold readFile
    rw [hgets]
    simp only [hr]
    rw [List.take_append]
    have hm' : ∀ c ∈ m.take (n - l.length), isBlank c = true :=
      fun c hc => hm c (List.mem_of_mem_take hc)
    by_cases hfirst : ∃ c ∈ l.take n, isBlank c = false
    · rw [readLine_plain (fun c hc => hl c (List.mem_of_mem_take hc))
        (fun c hc => hend c (List.mem_of_mem_take hc)) hfirst hm']
    · have hblank : ∀ c ∈ l.take n ++ m.take (n - l.length), isBlank c = true := by
        intro c hc
        rcases List.mem_append.mp hc with hc | hc
        · by_contra hnot
          exact hfirst ⟨c, hc, by simpa using hnot⟩
        · exact hm' c hc
      have hline : readLine vars (l.take n ++ m.take (n - l.length) ++ 0 :: r) = some vars := by
        unfold readLine
        rw [parseToken_blank hblank]
      rw [hline]
      simp only
      rw [List.drop_append]
      have hrest : c ∈ l.drop n := by
        have hsplit : c ∈ l.take n ++ l.drop n := by rwa [List.take_append_drop]
        rcases List.mem_append.mp hsplit with hc | hc
        · exact absurd ⟨c, hc, hcb⟩ hfirst
        · exact hc
      have hlt : n < l.length := by
        by_contra hle
        rw [List.drop_eq_nil_of_le (by omega)] at hrest
        exact absurd hrest List.not_mem_nil
      apply ih (fun c hc => hl c (List.mem_of_mem_drop hc))
        (fun c hc => hend c (List.mem_of_mem_drop hc)) ⟨c, hrest, hcb⟩
        (fun c hc => hm c (List.mem_of_mem_drop hc))
      simp only [List.length_append, List.length_drop] at hfuel ⊢
      omega

end Config

end

/-! # Stored values -/

/-- The values one after the other, each with a zero behind it. -/
def storedValues (values : List (List UInt8)) : List UInt8 := values.flatMap fun v => v ++ [0]

theorem storedValues_cons (v : List UInt8) (values : List (List UInt8)) :
    storedValues (v :: values) = v ++ 0 :: storedValues values := by
  simp [storedValues]

section

variable {vs : List (List UInt8)} {rest : List UInt8}

theorem ConfigVar.skipValues_stored (hzero : ∀ v ∈ vs, 0 ∉ v) {i : Nat} (hi : i ≤ vs.length) :
    skipValues i (storedValues vs ++ rest) = storedValues (vs.drop i) ++ rest := by
  induction i generalizing vs with
  | zero => rfl
  | succ i ih =>
    cases vs with
    | nil => exact absurd hi (by simp)
    | cons v vs =>
      have htake : (v ++ 0 :: (storedValues vs ++ rest)).takeWhile (· ≠ 0) = v :=
        Netfram.cstr_append (hzero v List.mem_cons_self)
      have hstored : storedValues (v :: vs) ++ rest = v ++ 0 :: (storedValues vs ++ rest) := by
        rw [storedValues_cons, List.append_assoc]
        rfl
      have hdrop : (v ++ 0 :: (storedValues vs ++ rest)).drop (v.length + 1) =
          storedValues vs ++ rest := by
        rw [← List.drop_drop, List.drop_left]
        rfl
      rw [skipValues, hstored, htake, hdrop,
        ih (fun w hw => hzero w (List.mem_cons_of_mem v hw)) (Nat.le_of_succ_le_succ hi),
        List.drop_succ_cons]

end

end PL
